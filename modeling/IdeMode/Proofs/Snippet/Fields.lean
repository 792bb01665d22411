import IdeMode.Proofs.Buffer.Caches
import IdeMode.Proofs.Buffer.Terminators
import IdeMode.Proofs.Sexp.Grammar
import IdeMode.Proofs.Snippet.Filling
set_option autoImplicit false

/-!
# Where the fields of a template end up

A template may be any text. What it means is said here by a relation: from left to right, an escape
or a field is taken wherever one begins, and only a character where none begins stands for itself.
So there is one reading. The fields keep their order in the text that replaces the range, and those
that are reported are the same fields in the order of their numbers.
-/

namespace IdeMode

open List

namespace Snippet

/-! ## Templates and their tokens -/

/-- The default of a field as it is written, up to the closing brace, and what it stands for. A
backslash goes with the character after it; it stays before a newline and is dropped before any
other character. -/
inductive Default : List Char → List Char → Prop where
  | nil : Default [] []
  | plain {c : Char} {body text : List Char} (hbrace : c ≠ '\x7d') (hslash : c ≠ '\\')
    (h : Default body text) : Default (c :: body) (c :: text)
  | escaped {c : Char} {body text : List Char} (hc : c ≠ '\n') (h : Default body text) :
    Default ('\\' :: c :: body) (c :: text)
  | newline {body text : List Char} (h : Default body text) :
    Default ('\\' :: '\n' :: body) ('\\' :: '\n' :: text)

/-- A field as it is written before a rest: a number in decimal digits of whatever script, and a
default. -/
structure FieldWritten (source digits text rest : List Char) : Prop where
  numbered : digits ≠ [] ∧ ∀ c ∈ digits, Text.isDigit c = true
  written : ∃ body, Default body text ∧
      source = '$' :: '\x7b' :: (digits ++ ':' :: (body ++ '\x7d' :: rest))

/-- An escape or a field begins the text. -/
def Marked (cs : List Char) : Prop :=
  (∃ c rest, cs = '\\' :: c :: rest) ∨ ∃ digits text rest, FieldWritten cs digits text rest

/-- What a template means. Numbers with too many digits mean nothing. -/
inductive Reads : List Char → List Token → Prop where
  | nil : Reads [] []
  | escaped (c : Char) {rest : List Char} {tokens : List Token} (h : Reads rest tokens) :
    Reads ('\\' :: c :: rest) (.char c :: tokens)
  | field {source digits text rest : List Char} {values : List Nat} {tokens : List Token}
      (hfield : FieldWritten source digits text rest) (hshort : digits.length ≤ Text.digitLimit)
      (hvalues : digits.map Text.digitValue? = values.map some) (h : Reads rest tokens) :
    Reads source (.field (Nat.ofDigits 10 values.reverse) text :: tokens)
  | literal (c : Char) {rest : List Char} {tokens : List Token} (hplain : ¬ Marked (c :: rest))
      (h : Reads rest tokens) : Reads (c :: rest) (.char c :: tokens)

variable {cs : List Char} {tokens : List Token}

theorem default_of_fieldBody? {r : List Char × List Char} (h : fieldBody? cs = some r) :
    cs = r.1 ++ '\x7d' :: r.2 ∧ Default r.1 (unescapeDefault r.1) := by
  fun_induction fieldBody? cs generalizing r with
  | case1 => cases h
  | case2 rest =>
    cases h
    exact ⟨rfl, .nil⟩
  | case3 => cases h
  | case4 c rest ih =>
    obtain ⟨r', hr', rfl⟩ := Option.map_eq_some_iff.1 h
    obtain ⟨rfl, hdefault⟩ := ih hr'
    refine ⟨rfl, ?_⟩
    dsimp only
    rw [unescapeDefault]
    split
    · next hc =>
      subst hc
      exact .newline hdefault
    · next hc => exact .escaped hc hdefault
  | case5 c rest hbrace hlast hslash ih =>
    obtain ⟨r', hr', rfl⟩ := Option.map_eq_some_iff.1 h
    obtain ⟨rfl, hdefault⟩ := ih hr'
    have hne : c ≠ '\\' := by
      rintro rfl
      obtain ⟨body, rest⟩ := r'
      cases body <;> exact hslash _ _ rfl rfl
    refine ⟨rfl, ?_⟩
    dsimp only
    rw [unescapeDefault]
    · exact .plain hbrace hne hdefault
    · exact fun _ _ heq _ => hne heq

theorem fieldBody?_of_default {body text : List Char} (h : Default body text) (rest : List Char) :
    fieldBody? (body ++ '\x7d' :: rest) = some (body, rest) ∧ unescapeDefault body = text := by
  induction h with
  | nil => exact ⟨rfl, rfl⟩
  | @plain c body text hbrace hslash _ ih =>
    constructor
    · rw [cons_append, fieldBody?, ih.1]
      · rfl
      · exact hbrace
      · exact fun heq _ => hslash heq
      · exact fun _ _ heq _ => hslash heq
    · rw [unescapeDefault, ih.2]
      exact fun _ _ heq _ => hslash heq
  | @escaped c body text hc _ ih =>
    refine ⟨?_, ?_⟩
    · rw [cons_append, cons_append, fieldBody?, ih.1]
      rfl
    · rw [unescapeDefault, if_neg hc, ih.2]
  | newline _ ih =>
    refine ⟨?_, ?_⟩
    · rw [cons_append, cons_append, fieldBody?, ih.1]
      rfl
    · rw [unescapeDefault, if_pos rfl, ih.2]

theorem fieldWritten_of_fieldAt? {digits body rest : List Char}
    (h : fieldAt? cs = some (digits, body, rest)) :
    FieldWritten ('$' :: '\x7b' :: cs) digits (unescapeDefault body) rest := by
  unfold fieldAt? at h
  dsimp only at h
  split at h
  · cases h
  · next tail hdrop hne =>
    obtain ⟨r, hr, heq⟩ := Option.map_eq_some_iff.1 h
    cases heq
    obtain ⟨rfl, hdefault⟩ := default_of_fieldBody? hr
    refine ⟨⟨hne, fun c hc => mem_takeWhile_imp hc⟩, r.1, hdefault, ?_⟩
    rw [← hdrop, takeWhile_append_dropWhile]
  · cases h

theorem fieldAt?_of_fieldWritten {digits text rest : List Char}
    (h : FieldWritten ('$' :: '\x7b' :: cs) digits text rest) :
    ∃ body, fieldAt? cs = some (digits, body, rest) ∧ unescapeDefault body = text := by
  obtain ⟨⟨hne, hdigits⟩, body, hdefault, heq⟩ := h
  obtain ⟨hbody, htext⟩ := fieldBody?_of_default hdefault rest
  obtain rfl : cs = digits ++ ':' :: (body ++ '\x7d' :: rest) := by simpa using heq
  have hcolon : Text.isDigit ':' = false := by decide
  refine ⟨body, ?_, htext⟩
  unfold fieldAt?
  rw [takeWhile_append_of_pos hdigits, dropWhile_append_of_pos hdigits,
    takeWhile_cons_of_neg (by simp [hcolon]), dropWhile_cons_of_neg (by simp [hcolon]), append_nil]
  obtain ⟨d, ds, rfl⟩ := exists_cons_of_ne_nil hne
  exact congrArg (Option.map fun r => (d :: ds, r.1, r.2)) hbody

/-- A number in a template has more digits than are read. -/
def Overlong (cs : List Char) : Prop :=
  ∃ digits, digits <:+: cs ∧ (∀ c ∈ digits, Text.isDigit c = true) ∧ Text.digitLimit < digits.length

theorem Overlong.prepend {rest : List Char} (h : Overlong rest) (front : List Char) :
    Overlong (front ++ rest) := by
  obtain ⟨digits, hinfix, hmore⟩ := h
  exact ⟨digits, hinfix.trans (suffix_append front rest).isInfix, hmore⟩

/-- The tokens that are found are what the template means, and if none are found a number is too
long. -/
def Explains (cs : List Char) : Result (List Token) → Prop
  | .ok tokens => Reads cs tokens
  | .error _ => Overlong cs

theorem explains_tokensWithin {bound : Nat} (hbound : cs.length ≤ bound) :
    Explains cs (tokensWithin bound cs) := by
  induction bound generalizing cs with
  | zero =>
    obtain rfl := length_eq_zero_iff.1 (Nat.le_zero.1 hbound)
    exact .nil
  | succ bound ih =>
    have hstep : ∀ {token rest} (front), rest.length ≤ bound →
        (∀ tokens, Reads rest tokens → Reads (front ++ rest) (token :: tokens)) →
        Explains (front ++ rest) ((tokensWithin bound rest).map (token :: ·)) := by
      intro token rest front hrest hreads
      have hmore := ih hrest
      cases htokens : tokensWithin bound rest with
      | error fault =>
        rw [htokens] at hmore
        exact hmore.prepend front
      | ok tail =>
        rw [htokens] at hmore
        exact hreads tail hmore
    unfold tokensWithin
    split
    · exact .nil
    · next c rest =>
      exact hstep ['\\', c] (Nat.le_of_succ_le (Nat.le_of_succ_le_succ hbound))
        fun _ h => .escaped c h
    · next rest =>
      cases hfield : fieldAt? rest with
      | none =>
        refine hstep ['$'] (Nat.le_of_succ_le_succ hbound) fun _ h => .literal '$' ?_ h
        rintro (⟨c, rest', heq⟩ | ⟨digits, text, rest', hwritten⟩)
        · cases heq
        · obtain ⟨body, hsome, -⟩ := fieldAt?_of_fieldWritten hwritten
          rw [hfield] at hsome
          cases hsome
      | some found =>
        obtain ⟨digits, body, rest'⟩ := found
        have hwritten := fieldWritten_of_fieldAt? hfield
        obtain ⟨⟨hne, hdigits⟩, body', hdefault, heq⟩ := id hwritten
        have hfront : '$' :: '\x7b' :: rest =
            ('$' :: '\x7b' :: (digits ++ ':' :: (body' ++ ['\x7d']))) ++ rest' := by
          simp [heq]
        dsimp only
        split
        · next hlong =>
          refine ⟨digits, ⟨['$', '\x7b'], ':' :: (body' ++ '\x7d' :: rest'), ?_⟩, hdigits, hlong⟩
          simp [heq]
        · next hshort =>
          have hlength := congrArg List.length hfront
          simp only [length_cons, length_append] at hlength hbound
          obtain ⟨values, hvalues⟩ := Sexp.exists_digitValues hdigits
          rw [Sexp.digitsValue_eq_ofDigits hvalues]
          rw [hfront] at hwritten ⊢
          exact hstep _ (by omega) fun _ h => .field hwritten (Nat.le_of_not_lt hshort) hvalues h
    · next c rest hescape hfield =>
      refine hstep [c] (Nat.le_of_succ_le_succ hbound) fun _ h => .literal c ?_ h
      rintro (⟨d, rest', heq⟩ | ⟨digits, text, rest', -, body, -, heq⟩)
      · cases heq
        exact hescape _ _ rfl rfl
      · cases heq
        exact hfield _ rfl rfl

/-- What a template means is found. -/
theorem tokensWithin_of_reads (h : Reads cs tokens) : ∀ {bound : Nat}, cs.length ≤ bound →
    tokensWithin bound cs = .ok tokens := by
  induction h with
  | nil =>
    intro bound _
    cases bound <;> rfl
  | escaped c _ ih =>
    intro bound hbound
    obtain ⟨bound, rfl⟩ : ∃ b, bound = b + 1 := ⟨bound - 1, by simp at hbound; omega⟩
    rw [tokensWithin, ih (by simp at hbound; omega)]
    rfl
  | @field source digits text rest values tokens hfield hshort hvalues _ ih =>
    intro bound hbound
    obtain ⟨-, body', -, heq⟩ := id hfield
    subst heq
    simp only [length_cons, length_append] at hbound
    obtain ⟨bound, rfl⟩ : ∃ b, bound = b + 1 := ⟨bound - 1, by omega⟩
    obtain ⟨body, hat, rfl⟩ := fieldAt?_of_fieldWritten hfield
    rw [tokensWithin, hat]
    dsimp only
    rw [if_neg (Nat.not_lt.2 hshort), ih (by omega), Sexp.digitsValue_eq_ofDigits hvalues]
    rfl
  | @literal c rest tokens hplain _ ih =>
    intro bound hbound
    obtain ⟨bound, rfl⟩ : ∃ b, bound = b + 1 := ⟨bound - 1, by simp at hbound; omega⟩
    have hrest : (tokensWithin bound rest).map (Token.char c :: ·) = .ok (.char c :: tokens) := by
      rw [ih (by simpa using hbound)]
      rfl
    unfold tokensWithin
    split
    · next heq => cases heq
    · next d rest' heq =>
      cases heq
      exact absurd (.inl ⟨d, rest', rfl⟩) hplain
    · next rest' heq =>
      cases heq
      cases hfield : fieldAt? rest' with
      | none => exact hrest
      | some found => exact absurd (.inr ⟨_, _, _, fieldWritten_of_fieldAt? hfield⟩) hplain
    · next c' rest' _ _ heq =>
      cases heq
      exact hrest

theorem tokens_eq_ok_iff : Snippet.tokens cs = .ok tokens ↔ Reads cs tokens := by
  refine ⟨fun h => ?_, fun h => tokensWithin_of_reads h (Nat.le_refl _)⟩
  have hreads := explains_tokensWithin (Nat.le_refl cs.length)
  rw [show tokensWithin cs.length cs = .ok tokens from h] at hreads
  exact hreads

/-- The number and the default of a field. -/
def Token.field? : Token → Option (Nat × String)
  | .char _ => none
  | .field number default => some (number, String.ofList default)

theorem insertTemplate_eq {b : Buffer} {d : Disk} {start finish : Int} {template : List Char}
    (h : Snippet.tokens template = .ok tokens) : insertTemplate b d start finish template =
      (b.replace d start finish (expansion tokens)).map
        fun r => (sortFields (fieldsFrom start tokens), r) := by
  unfold insertTemplate
  rw [h]
  show (b.replace d start finish (expansion tokens) >>= _) = _
  cases b.replace d start finish (expansion tokens) <;> rfl

theorem standsIn_of_mem_fieldsFrom {f : Field} (front back : List Char)
    (h : f ∈ fieldsFrom front.length tokens) :
    f.StandsIn (front ++ expansion tokens ++ back) ∧ front.length ≤ f.offset ∧
      f.offset + f.default.length ≤ front.length + (expansion tokens).length := by
  obtain ⟨left, right, htext, hoffset⟩ := exists_of_mem_fieldsFrom h
  refine ⟨⟨front ++ left, right ++ back, by simp [htext], by simp [hoffset]⟩, by omega, ?_⟩
  rw [htext, hoffset]
  simp only [length_append, String.length_toList]
  omega

theorem map_fieldsFrom (place : Int) (tokens : List Token) :
    (fieldsFrom place tokens).map (fun f => (f.number, f.default)) =
      tokens.filterMap Token.field? := by
  induction tokens generalizing place with
  | nil => rfl
  | cons t tokens ih =>
    cases t with
    | char c => exact ih (place + 1)
    | field number default => exact congrArg _ (ih (place + default.length))

/-! ## The order of the numbers -/

/-- The same fields in the order of their numbers, those with the same number as they were. -/
structure StablySorted (fields sorted : List Field) : Prop where
  perm : sorted.Perm fields
  ordered : sorted.Pairwise fun f g => f.number ≤ g.number
  stable : ∀ n, sorted.filter (fun f => f.number = n) = fields.filter fun f => f.number = n

/-- A field is put between those with at most its number and those with a greater one. -/
theorem exists_insertField {fields : List Field}
    (h : fields.Pairwise fun f g => f.number ≤ g.number) (f : Field) :
    ∃ front back, fields = front ++ back ∧ insertField f fields = front ++ f :: back ∧
      (∀ g ∈ front, g.number ≤ f.number) ∧ ∀ g ∈ back, f.number < g.number := by
  induction fields with
  | nil => exact ⟨[], [], rfl, rfl, nofun, nofun⟩
  | cons g fields ih =>
    obtain ⟨hg, hfields⟩ := pairwise_cons.1 h
    rw [insertField]
    split
    · next hlt =>
      exact ⟨[], g :: fields, rfl, rfl, nofun,
        forall_mem_cons.2 ⟨hlt, fun x hx => Nat.lt_of_lt_of_le hlt (hg x hx)⟩⟩
    · next hle =>
      obtain ⟨front, back, rfl, hinsert, hfront, hback⟩ := ih hfields
      exact ⟨g :: front, back, rfl, congrArg _ hinsert,
        forall_mem_cons.2 ⟨Nat.not_lt.1 hle, hfront⟩, hback⟩

theorem StablySorted.insert {fields sorted : List Field}
    (h : StablySorted fields sorted) (f : Field) :
    StablySorted (fields ++ [f]) (insertField f sorted) := by
  obtain ⟨front, back, rfl, hinsert, hfront, hback⟩ := exists_insertField h.ordered f
  obtain ⟨hordered, hbehind, hcross⟩ := pairwise_append.1 h.ordered
  rw [hinsert]
  refine ⟨?_, ?_, fun n => ?_⟩
  · exact perm_middle.trans ((h.perm.cons f).trans (perm_append_singleton f fields).symm)
  · refine pairwise_append.2
      ⟨hordered, pairwise_cons.2 ⟨fun g hg => Nat.le_of_lt (hback g hg), hbehind⟩, ?_⟩
    exact fun x hx => forall_mem_cons.2 ⟨hfront x hx, hcross x hx⟩
  · have hsame := h.stable n
    rw [filter_append] at hsame
    rw [filter_append, filter_append, ← hsame, filter_cons]
    by_cases hn : f.number = n
    · -- those behind the field have greater numbers than it
      have hnone : back.filter (fun g => g.number = n) = [] :=
        filter_eq_nil_iff.2 fun g hg heq =>
          absurd (hn.trans (of_decide_eq_true heq).symm) (Nat.ne_of_lt (hback g hg))
      simp [hn, hnone]
    · simp [hn]

theorem stablySorted_sortFields (fields : List Field) :
    StablySorted fields (sortFields fields) := by
  induction fields using List.reverseRecOn with
  | nil => exact ⟨.nil, .nil, fun _ => rfl⟩
  | append_singleton fields f ih =>
    rw [sortFields, foldl_append]
    exact ih.insert f

end Snippet

/-! ## Expansion -/

namespace Cell

/-- Replaces a range of the text by a template with its defaults filled in. -/
def expand (start finish : Int) (template : List Char) : Method (List Field) := do
  let tokens ← Prog.ofResult (Snippet.tokens template)
  replace start finish (.text (Snippet.expansion tokens))
  return Snippet.sortFields (Snippet.fieldsFrom start tokens)

/-- What an operation comes to that leaves the files alone where it fails. -/
def settled {α : Type} (d : Disk) : Result (α × Buffer × Disk) → Result (α × Buffer) × Disk
  | .ok (a, b, d) => (.ok (a, b), d)
  | .error f => (.error f, d)

theorem follows_expand (c : Cell) (start finish : Int) (template : List Char) :
    c.Follows ((expand start finish template).run c)
      (settled c.disk (Snippet.insertTemplate c.buffer c.disk start finish template)) := by
  cases htokens : Snippet.tokens template with
  | error fault =>
    unfold Follows expand Snippet.insertTemplate
    rw [htokens]
    rfl
  | ok tokens =>
    have hreplace := (follows_replace c start finish (.text (Snippet.expansion tokens))).andReturn
      (a := Snippet.sortFields (Snippet.fieldsFrom start tokens))
    rw [Snippet.insertTemplate_eq htokens, expand, htokens]
    refine hreplace.trans ?_
    dsimp only [Buffer.replaceBy]
    cases c.buffer.replace c.disk start finish (Snippet.expansion tokens) <;> rfl

/-- **The fields of a template stand where they are said to.** A template means at most one list of
tokens. Expanding it fails and changes nothing, which happens only if a number in it is too long,
the range does not lie in the text or the file is gone; or it replaces the range by what the tokens
come to. The fields that it reports are those of the template in the order of their numbers. Each
stands at its offset in the new text, within what was inserted, and where two fields occur in the
template one after the other, they stand one after the other in the text. -/
theorem expansion_places_fields (c : Cell) (start finish : Int) (template : List Char) :
    (∀ tokens tokens', Snippet.Reads template tokens → Snippet.Reads template tokens' →
      tokens = tokens') ∧ c.Follows ((expand start finish template).run c)
      (settled c.disk (Snippet.insertTemplate c.buffer c.disk start finish template)) ∧
    ((∃ fault, (expand start finish template).run c = (.finished (.error fault), c) ∧
        (Snippet.Overlong template ∨ ¬ (0 ≤ start ∧ start ≤ finish ∧ finish ≤ c.text.length) ∨
          c.disk.file? c.path = none)) ∨
      ∃ tokens content disk occurring fields, Snippet.Reads template tokens ∧
        content = c.text.take start.toNat ++ Snippet.expansion tokens ++ c.text.drop finish.toNat ∧
        (expand start finish template).run c =
          (.finished (.ok fields), c.follow (c.buffer.changed content) disk) ∧
        occurring.map (fun f => (f.number, f.default)) = tokens.filterMap Snippet.Token.field? ∧
        Snippet.StablySorted occurring fields ∧
        (∀ f ∈ fields, f.StandsIn content ∧ start ≤ f.offset ∧
          f.offset + f.default.length ≤ start + (Snippet.expansion tokens).length) ∧
        occurring.Pairwise fun f g => f.offset + (f.default.length : Int) ≤ g.offset) := by
  have hfollows := follows_expand c start finish template
  have hunique : ∀ tokens tokens', Snippet.Reads template tokens → Snippet.Reads template tokens' →
      tokens = tokens' := by
    intro tokens tokens' h h'
    rw [← Snippet.tokens_eq_ok_iff] at h h'
    exact Except.ok.inj (h.symm.trans h')
  refine ⟨hunique, hfollows, ?_⟩
  unfold Follows at hfollows
  cases htokens : Snippet.tokens template with
  | error fault =>
    have hlong := Snippet.explains_tokensWithin (Nat.le_refl template.length)
    rw [show Snippet.tokensWithin template.length template = .error fault from htokens] at hlong
    rw [Snippet.insertTemplate, htokens] at hfollows
    exact .inl ⟨fault, hfollows, .inl hlong⟩
  | ok tokens =>
    rw [Snippet.insertTemplate_eq htokens] at hfollows
    cases hreplace : c.buffer.replace c.disk start finish (Snippet.expansion tokens) with
    | error fault =>
      rw [hreplace] at hfollows
      refine .inl ⟨fault, hfollows, .inr (or_iff_not_imp_left.2 fun hrange => ?_)⟩
      by_contra hfile
      obtain ⟨_, _, hok⟩ :=
        Buffer.exists_replace_eq_ok (b := c.buffer) (Option.isSome_iff_ne_none.2 hfile)
        (not_not.1 hrange) (Snippet.expansion tokens)
      rw [hreplace] at hok
      cases hok
    | ok replaced =>
      obtain ⟨buffer, disk⟩ := replaced
      obtain ⟨⟨hstart, hle, hfinish⟩, rfl, -⟩ := Buffer.replace_eq_ok hreplace
      change finish ≤ c.text.length at hfinish
      have hsorted := Snippet.stablySorted_sortFields (Snippet.fieldsFrom start tokens)
      rw [hreplace] at hfollows
      refine .inr ⟨tokens, _, disk, Snippet.fieldsFrom start tokens, _,
        Snippet.tokens_eq_ok_iff.1 htokens, rfl, hfollows,
        Snippet.map_fieldsFrom start tokens, hsorted, fun f hf => ?_,
        Snippet.pairwise_fieldsFrom start tokens⟩
      have hplace : ((c.text.take start.toNat).length : Int) = start := by
        rw [length_take]
        omega
      have hstands := Snippet.standsIn_of_mem_fieldsFrom (c.text.take start.toNat)
        (c.text.drop finish.toNat) (hplace.symm ▸ hsorted.perm.mem_iff.1 hf)
      rwa [hplace] at hstands

/-- A template with an escaped dollar sign, a second field before the first, an escaped brace in a
default, and a dollar sign that begins no field, put between the two characters of a file. -/
theorem expansion_places_fields_unordered :
    let c : Cell :=
      { disk := { files := [(⟨["A.idr"]⟩, [97, 98])] }, path := ⟨["A.idr"]⟩, text := ['a', 'b'] }
    let template := ['\\', '$', '$', '\x7b', '2', ':', 'x', '\\', '\x7d', '\x7d', '$', '$', '\x7b',
      '1', ':', 'y', '\x7d']
    Snippet.Reads template [.char '$', .field 2 ['x', '\x7d'], .char '$', .field 1 ['y']] ∧
    ∃ c', (expand 1 1 template).run c = (.finished (.ok [⟨1, "y", 5⟩, ⟨2, "x\x7d", 2⟩]), c') ∧
      c'.text = ['a', '$', 'x', '\x7d', '$', 'y', 'b'] := by
  intro c template
  have hreads : Snippet.Reads template [.char '$', .field 2 ['x', '\x7d'], .char '$',
      .field 1 ['y']] :=
    Snippet.tokens_eq_ok_iff.1 rfl
  obtain ⟨hunique, -, ⟨fault, hrun, -⟩ | ⟨tokens, content, disk, occurring, fields, hread,
      hcontent, hrun, -⟩⟩ :=
    expansion_places_fields c 1 1 template
  · cases hrun
  · have hfields : ((expand 1 1 template).run c).1 =
      .finished (.ok [⟨1, "y", 5⟩, ⟨2, "x\x7d", 2⟩]) := rfl
    obtain rfl := hunique _ _ hread hreads
    rw [hrun] at hfields
    cases hfields
    exact ⟨hreads, _, hrun, hcontent⟩

end Cell

end IdeMode
