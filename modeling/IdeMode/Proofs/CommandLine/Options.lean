import IdeMode.CommandLine
set_option autoImplicit false

/-!
# Options around the command

A command line of complete options chooses what they say, one after the other. Where `serve` stands
among them, those before it are read and count for nothing: the ones after it start from the
defaults.
-/

namespace IdeMode.CommandLine

open List

/-! ## Complete options -/

/-- Takes an option with its value, or without one. -/
def Options.take (o : Options) (choice : Name × Option String) : Except Exit Options :=
  match choice.2 with
  | some value => o.set choice.1 value
  | none => o.flag choice.1

/-- The options that choices come to, from the defaults on. -/
def chosen (choices : List (Name × Option String)) : Except Exit Options :=
  choices.foldlM Options.take {}

/-- The beginning of a long option that fits no other. -/
def Abbreviates (stem : List Char) (name : Name) : Prop :=
  (longSpellings.filter fun o => stem.isPrefixOf o.1).map Prod.snd = [name]

/-- The arguments that write a complete option. -/
inductive Writes : Name × Option String → List String → Prop where
  | flag {stem : List Char} {name : Name} (hstem : Abbreviates stem name)
    (hname : name.takesValue = false) : Writes (name, none) [String.ofList stem]
  | letters (n : Nat) : Writes (.verbose, none) [String.ofList ('-' :: 'v' :: List.replicate n 'v')]
  | joined {stem : List Char} {name : Name} (hstem : Abbreviates stem name)
    (hname : name.takesValue = true) (value : String) :
    Writes (name, some value) [String.ofList (stem ++ '=' :: value.toList)]
  /-- the value is an argument of its own, which does not look like an option -/
  | apart {stem : List Char} {name : Name} {value : String} (hstem : Abbreviates stem name)
    (hname : name.takesValue = true) (hvalue : classify value = .ok .plain) :
    Writes (name, some value) [String.ofList stem, value]

/-- Arguments that are complete options, with what they choose. -/
inductive Written : List (Name × Option String) → List String → Prop where
  | nil : Written [] []
  | cons {choice : Name × Option String} {choices : List (Name × Option String)}
    {args rest : List String} (hchoice : Writes choice args) (h : Written choices rest) :
    Written (choice :: choices) (args ++ rest)

/-! ## Telling them apart -/

variable {stem : List Char} {name : Name}

/-- A stem has the two dashes of a long option and no equals sign. -/
theorem Abbreviates.shape (h : Abbreviates stem name) :
    (∃ rest, stem = '-' :: '-' :: rest) ∧ '=' ∉ stem := by
  have hspelling : ∀ o ∈ longSpellings, o.1.take 2 = ['-', '-'] ∧ '=' ∉ o.1 := by decide
  obtain ⟨o, hfilter, -⟩ := map_eq_singleton_iff.1 h
  obtain ⟨hspelled, hbegins⟩ := mem_filter.1 (hfilter ▸ mem_singleton_self o)
  obtain ⟨tail, htail⟩ := isPrefixOf_iff_prefix.1 hbegins
  obtain ⟨htake, hequals⟩ := hspelling o hspelled
  rw [← htail] at htake hequals
  refine ⟨?_, fun hin => hequals (mem_append_left _ hin)⟩
  cases stem with
  | nil => exact absurd (congrArg List.length h) (by simp [longSpellings])
  | cons c stem =>
    cases stem with
    | nil =>
      obtain rfl : c = '-' := (List.cons.inj htake).1
      exact absurd (congrArg List.length h) (by simp [longSpellings])
    | cons d rest =>
      cases htake
      exact ⟨rest, rfl⟩

theorem classify_long (h : Abbreviates stem name) (value : Option String) :
    classify (String.ofList (stem ++ (value.map fun v => '=' :: v.toList).getD [])) =
      .ok (.long name value) := by
  obtain ⟨⟨rest, hdashes⟩, hequals⟩ := h.shape
  have hall : ∀ c ∈ stem, (c != '=') = true :=
    fun c hc => bne_iff_ne.2 fun heq => hequals (heq ▸ hc)
  obtain ⟨o, hfilter, rfl⟩ := map_eq_singleton_iff.1 h
  obtain ⟨tail, htail⟩ : ∃ tail, tail = (value.map fun v => '=' :: v.toList).getD [] := ⟨_, rfl⟩
  have hstem : (stem ++ tail).takeWhile (· != '=') = stem := by
    rw [takeWhile_append_of_pos hall]
    cases value <;> simp [htail]
  have hvalue : (if (stem ++ tail).contains '=' = true then
      some (String.ofList (((stem ++ tail).dropWhile (· != '=')).drop 1)) else none) = value := by
    rw [dropWhile_append_of_pos hall]
    cases value <;> simp [htail, hequals]
  have hfound : ∀ found, (longSpellings.find? fun o => o.1 == stem) = some found → found = o := by
    intro found hfind
    have hsame : found.1 = stem := by simpa using List.find?_some hfind
    have hmem : found ∈ longSpellings.filter fun o => stem.isPrefixOf o.1 :=
      mem_filter.2 ⟨mem_of_find?_eq_some hfind, by simp [hsame]⟩
    rw [hfilter] at hmem
    exact mem_singleton.1 hmem
  unfold classify
  rw [← htail, String.toList_ofList]
  subst hdashes
  simp only [cons_append] at hstem hvalue ⊢
  simp only [hstem, hvalue, hfilter]
  cases hfind : longSpellings.find? fun o => o.1 == '-' :: '-' :: rest with
  | none => rfl
  | some found => rw [hfound found hfind]

/-! ## Reading them -/

theorem shortNames?_letters (n : Nat) : shortNames? .verbose (List.replicate n 'v') =
      some (List.replicate (n + 1) .verbose, false) := by
  induction n with
  | zero => rfl
  | succ n ih => exact congrArg (Option.map _) ih

theorem foldlM_flag_letters (n : Nat) (o : Options) :
    (List.replicate (n + 1) Name.verbose).foldlM Options.flag o = o.flag .verbose := by
  induction n generalizing o with
  | zero => rfl
  | succ n ih => exact ih { o with verbose := true }

/-- Arguments look like options that, before others, are read as choices. -/
structure Reads (choices : List (Name × Option String)) (kinds : List (String × Kind)) : Prop where
  kinds_eq : ∀ p ∈ kinds, classify p.1 = .ok p.2
  read_eq : ∀ commands r more, read commands r (kinds ++ more) =
    choices.foldlM Options.take r.options >>= fun o => read commands { r with options := o } more

theorem Writes.reads {choice : Name × Option String} {args : List String} (h : Writes choice args) :
    ∃ kinds, kinds.map Prod.fst = args ∧ Reads [choice] kinds := by
  cases h with
  | @flag stem name hstem hname =>
    have hkind := classify_long hstem none
    refine ⟨[(_, .long name none)], rfl, forall_mem_singleton.2 (append_nil stem ▸ hkind),
      fun commands r more => ?_⟩
    rw [singleton_append, read.eq_def, foldlM_cons]
    cases hflag : r.options.flag name <;> simp [Options.take, hname, hflag] <;> rfl
  | letters n =>
    refine ⟨[(String.ofList ('-' :: 'v' :: List.replicate n 'v'),
      .short .verbose (List.replicate n 'v'))], rfl,
      forall_mem_singleton.2 ?_, fun commands r more => ?_⟩
    · unfold classify
      rw [String.toList_ofList]
      rfl
    · rw [singleton_append, read, shortNames?_letters]
      dsimp only
      rw [foldlM_flag_letters, Bool.or_false]
      rfl
  | @joined stem name hstem hname value =>
    refine ⟨[(_, .long name (some value))], rfl,
      forall_mem_singleton.2 (classify_long hstem (some value)), fun commands r more => ?_⟩
    rw [singleton_append, read, if_pos hname, foldlM_cons]
    cases hset : r.options.set name value <;> simp [Options.take, hset] <;> rfl
  | @apart stem name value hstem hname hvalue =>
    have hkind := classify_long hstem none
    refine ⟨[(_, .long name none), (value, .plain)], rfl,
      forall_mem_cons.2 ⟨append_nil stem ▸ hkind, forall_mem_singleton.2 hvalue⟩,
      fun commands r more => ?_⟩
    rw [cons_append, singleton_append, read, if_pos hname, foldlM_cons]
    cases hset : r.options.set name value <;> simp [Options.take, hset] <;> rfl

theorem Written.reads {choices : List (Name × Option String)} {args : List String}
    (h : Written choices args) : ∃ kinds, kinds.map Prod.fst = args ∧ Reads choices kinds := by
  induction h with
  | nil => exact ⟨[], rfl, nofun, fun _ _ _ => rfl⟩
  | cons hchoice _ ih =>
    obtain ⟨first, rfl, hfirst⟩ := hchoice.reads
    obtain ⟨kinds, rfl, hkinds⟩ := ih
    refine ⟨first ++ kinds, map_append, forall_mem_append.2 ⟨hfirst.kinds_eq, hkinds.kinds_eq⟩,
      fun commands r more => ?_⟩
    rw [append_assoc, hfirst.read_eq]
    simp only [hkinds.read_eq, foldlM_cons, foldlM_nil, bind_pure, bind_assoc]

theorem readAll_of_forall {kinds : List (String × Kind)} (h : ∀ p ∈ kinds, classify p.1 = .ok p.2)
    (commands : Bool) : readAll commands (kinds.map Prod.fst) = read commands {} kinds := by
  have hall : classifyAll (kinds.map Prod.fst) = .ok kinds := by
    induction kinds with
    | nil => rfl
    | cons p kinds ih =>
      obtain ⟨hp, hkinds⟩ := forall_mem_cons.1 h
      rw [map_cons, classifyAll, hp, ih hkinds]
      intro heq
      rw [heq] at hp
      cases hp
  rw [readAll, hall]

/-- **`serve` discards the options before it.** Complete options are taken one after the other; with
`serve` between them, those before it have to be possible, but those after it are taken as if they
stood alone. -/
theorem serve_discards_options {before after : List (Name × Option String)} {a b : List String}
    (ha : Written before a) (hb : Written after b) : parse (a ++ b) = chosen (before ++ after) ∧
      parse (a ++ "serve" :: b) = chosen before >>= fun _ => chosen after := by
  obtain ⟨front, rfl, hfront⟩ := ha.reads
  obtain ⟨back, rfl, hback⟩ := hb.reads
  have hread : ∀ commands (r : Reading), read commands r back =
      after.foldlM Options.take r.options >>= fun o => .ok { r with options := o } := by
    intro commands r
    rw [← append_nil back, hback.read_eq]
    rfl
  constructor
  · rw [← map_append, parse,
      readAll_of_forall (forall_mem_append.2 ⟨hfront.kinds_eq, hback.kinds_eq⟩), hfront.read_eq]
    simp only [hread, chosen, foldlM_append]
    cases before.foldlM Options.take {} with
    | error e => rfl
    | ok o => cases hafter : after.foldlM Options.take o <;> simp [bind, Except.bind, hafter]
  · have hkinds : ∀ p ∈ front ++ ("serve", .plain) :: back, classify p.1 = .ok p.2 :=
      forall_mem_append.2 ⟨hfront.kinds_eq, forall_mem_cons.2 ⟨rfl, hback.kinds_eq⟩⟩
    have hargs : front.map Prod.fst ++ "serve" :: back.map Prod.fst =
        (front ++ ("serve", .plain) :: back).map Prod.fst := by
      simp
    rw [hargs, parse, readAll_of_forall hkinds, hfront.read_eq]
    unfold chosen
    cases before.foldlM Options.take {} with
    | error e => rfl
    | ok o =>
      have hinner := readAll_of_forall hback.kinds_eq false
      rw [hread] at hinner
      cases hafter : after.foldlM Options.take {} <;> simp [read, bind, Except.bind, hinner, hafter]

/-- The server that options before `serve` ask for is lost. -/
theorem serve_discards_options_port : Written [(.transport, some "http"), (.port, some "9000")]
      ["--transport", "http", "--port", "9000"] ∧ Written [] [] ∧
      (parse ["--transport", "http", "--port", "9000"]).map (Options.launch · false) =
        .ok { endpoint := some ("http", "127.0.0.1", 9000), snippets := false, verbose := false } ∧
      (parse ["--transport", "http", "--port", "9000", "serve"]).map (Options.launch · false) =
        .ok { endpoint := none, snippets := false, verbose := false } := by
  have hport : Written [(.port, some "9000")] (["--port", "9000"] ++ []) :=
    .cons (.apart (show Abbreviates "--port".toList .port from rfl) rfl rfl) .nil
  have hhttp : Written [(.transport, some "http"), (.port, some "9000")]
      (["--transport", "http"] ++ ["--port", "9000"]) :=
    .cons (.apart (show Abbreviates "--transport".toList .transport from rfl) rfl rfl) hport
  obtain ⟨hboth, hserve⟩ := serve_discards_options hhttp .nil
  exact ⟨hhttp, .nil, congrArg _ hboth, congrArg _ hserve⟩

end IdeMode.CommandLine
