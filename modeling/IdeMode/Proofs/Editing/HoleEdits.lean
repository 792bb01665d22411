import IdeMode.Proofs.Buffer.Holes
import IdeMode.Proofs.Editing.LineEdits
import IdeMode.Proofs.Editing.Refinements
set_option autoImplicit false

/-!
# Which hole is filled

Proof search and refinement both fill a hole of the line, and each looks for it in its own way when
the answer is there. Proof search goes back from the point to the nearest question mark. A
refinement takes the first hole of the line that goes by the name at the point, where a dot counts
as the end of the name; so it misses the hole at the point if a namesake stands before it.
-/

namespace IdeMode

open List

/-- A text of a length that can be read has no more fields than can be numbered. -/
theorem Editor.reads_of_length {e : Editor} {text : String}
    (h : e = .templated → text.length < 10 ^ Text.digitLimit) : e.Reads text.toList :=
  fun he => Nat.lt_of_le_of_lt countP_le_length (String.length_toList ▸ h he)

namespace Client

open Prog World

variable {s d : Nat} {e : Editor} {line column : Int} {w w' : World} {ε : Type} {memory memory' : ε}
  {env : Environment World Await ε}

/-! ## Proof search -/

/-- A hole is replaced by what the editor makes of a text. -/
theorem rewrites_hole {text name : String} {pre post : List Char} (hreads : e.Reads text.toList)
    (htext : ((w.session s).buffer d).text = pre ++ '?' :: name.toList ++ post) {start finish : Int}
    (hstart : start = Int.ofNat pre.length)
    (hfinish : finish = Int.ofNat (pre.length + 1 + name.length)) :
    Rewrites s d (((w.session s).buffer d).text.take start.toNat ++ e.inserted text.toList ++
        ((w.session s).buffer d).text.drop finish.toNat) (fun _ => True) w memory
      (runIn env (applyEdit s d e start finish text) w memory) := by
  have hlength : pre.length + 1 + name.length = (pre ++ '?' :: name.toList).length := by
    rw [length_append, length_cons, String.length_toList]
    omega
  have hne : ((w.session s).buffer d).text ≠ [] := by
    rw [htext]
    simp
  have hcontent : ((w.session s).buffer d).text.take start.toNat ++ e.inserted text.toList ++
      ((w.session s).buffer d).text.drop finish.toNat = pre ++ e.inserted text.toList ++ post := by
    rw [htext, hstart, hfinish, hlength]
    show List.take pre.length _ ++ _ ++ List.drop (pre ++ '?' :: name.toList).length _ = _
    rw [drop_left, append_assoc pre, take_left]
  rw [hcontent]
  exact rewrites_applyEdit hreads htext hne hstart (hfinish.trans (congrArg Int.ofNat hlength))

variable {name : String}

/-- Proof search puts the answer in the place of the nearest hole, if that has the name that was
asked about. -/
theorem rewrites_proofSearch {hints : List String} {number : Int} {r : Response}
    {start finish : Int} (hask : runIn env (askAbout s d "proof-search" line column
        [.list ((Editing.hintNames hints).map Value.str)]) w memory =
      (.ok (name, number, r), w', memory'))
    (hfound : ((w'.session s).buffer d).holeNear line column (some name) =
      .ok (some (start, finish))) (hreads : e.Reads (Editing.withoutTerminator r.text).toList) :
    Rewrites s d (((w'.session s).buffer d).text.take start.toNat ++
      e.inserted (Editing.withoutTerminator r.text).toList ++
        ((w'.session s).buffer d).text.drop finish.toNat)
      (fun edit => edit.text = Editing.withoutTerminator r.text) w' memory'
      (runIn env (proofSearch s d e line column hints) w memory) := by
  obtain ⟨rfl, -⟩ := nameAt_line (nameAt_of_askAbout hask)
  obtain ⟨hfirst, hlast⟩ := Buffer.le_lineCount_of_holeNear hfound
  obtain ⟨before, content, after, hline⟩ := Buffer.exists_hasLine hfirst hlast
  obtain ⟨pre, post, htext, hstart, hfinish, -⟩ := (hline.holeBefore_of_holeNear hfound).stands
  rw [proofSearch, runIn_bind_ok env hask]
  rw [runIn_session_bind, runIn_ofResult_bind hfound]
  exact (rewrites_hole hreads htext hstart hfinish).map fun _ _ => rfl

/-- **Proof search replaces the hole at the point.** Where a name is found at a point and a hole of
that name before it, the hole lies in the line, is a question mark with the whole of the name behind
it, and no other question mark stands between it and the point. From every point in a hole, from the
first character of its name to right behind the last, the name and that hole are found. And when the
compiler has answered, the hole that is found then is replaced, and nothing else. -/
theorem proof_search_fills_hole_at_point (line column : Int) :
    (∀ (b : Buffer) (name : String) (start finish : Int), b.nameAt line column = .ok (name, line) →
      b.holeNear line column (some name) = .ok (some (start, finish)) →
        b.HoleBefore line column name start finish) ∧
    (∀ (b : Buffer) (before left : List Char) (name : String) (right after : List Char),
      b.HoleAt line column before left name right after →
      b.nameAt line column = .ok (name, line) ∧
      b.holeNear line column (some name) = .ok (some (Int.ofNat (before.length + left.length),
        Int.ofNat (before.length + left.length) + 1 + name.length))) ∧
    ∀ (env : Environment World Await ε) (memory memory' : ε) (s d : Nat) (e : Editor)
      (hints : List String) (w w' : World) (name : String) (number : Int) (r : Response)
      (start finish : Int), runIn env (askAbout s d "proof-search" line column
        [.list ((Editing.hintNames hints).map Value.str)]) w memory =
        (.ok (name, number, r), w', memory') →
      ((w'.session s).buffer d).holeNear line column (some name) = .ok (some (start, finish)) →
      (e = .templated → r.text.length < 10 ^ Text.digitLimit) →
      Rewrites s d (((w'.session s).buffer d).text.take start.toNat ++
          e.inserted (Editing.withoutTerminator r.text).toList ++
          ((w'.session s).buffer d).text.drop finish.toNat)
        (fun edit => edit.text = Editing.withoutTerminator r.text) w' memory'
        (runIn env (proofSearch s d e line column hints) w memory) := by
  refine ⟨fun b name start finish hname hfound => ?_,
    fun b before left name right after h => ?_, ?_⟩
  · obtain ⟨-, hfirst, hlast⟩ := nameAt_line hname
    obtain ⟨before, content, after, hline⟩ := Buffer.exists_hasLine hfirst hlast
    exact hline.holeBefore_of_holeNear hfound
  · exact ⟨h.nameAt_eq, h.holeNear_eq⟩
  · intro env memory memory' s d e hints w w' name number r start finish hask hfound hfew
    refine rewrites_proofSearch hask hfound
      (Editor.reads_of_length fun he => Nat.lt_of_le_of_lt ?_ (hfew he))
    simpa only [String.length_toList] using length_withoutTerminator_le r.text

/-- From right behind its name the second of three holes is found and filled; the names of the
others begin alike. -/
theorem proof_search_fills_hole_at_point_second :
    let w := deskWorld "f = ?a.b ?a ?a'\n"
    ((w.session 0).buffer 0).HoleAt 1 12 [] "f = ?a.b ".toList "a" " ?a'".toList ['\n'] ∧
      ((w.session 0).buffer 0).nameAt 1 12 = .ok ("a", 1) ∧
      ((w.session 0).buffer 0).holeNear 1 12 (some "a") = .ok (some (9, 11)) ∧
      ((w.session 0).buffer 0).HoleBefore 1 12 "a" 9 11 ∧
      ∃ name number r w', runIn (answering id "Z\n")
        (askAbout 0 0 "proof-search" 1 12 [.list []]) w () = (.ok (name, number, r), w', ()) ∧
        Rewrites 0 0 "f = ?a.b Z ?a'\n".toList (fun edit => edit.text = "Z") w' ()
          (runIn (answering id "Z\n") (proofSearch 0 0 .plain 1 12 []) w ()) := by
  intro w
  have hhole : ((w.session 0).buffer 0).HoleAt 1 12 [] "f = ?a.b ".toList "a"
      " ?a'".toList ['\n'] :=
    ⟨⟨by decide, by decide, .inl rfl, .inr ⟨[], rfl⟩,
      rfl⟩, by decide, by simp [isNameChar, isWordChar],
      by simp [isNameChar, isWordChar], by decide, by decide, by decide, by decide⟩
  obtain ⟨hsound, hcomplete, hfills⟩ := proof_search_fills_hole_at_point (ε := Unit) 1 12
  obtain ⟨hname, hnear⟩ := hcomplete _ _ _ _ _ _ hhole
  have hfound : ((w.session 0).buffer 0).holeNear 1 12 (some "a") = .ok (some (9, 11)) := hnear
  refine ⟨hhole, hname, hfound, hsound _ _ _ _ hname hfound, ?_⟩
  have htext :
    ((((runIn (answering id "Z\n") (askAbout 0 0 "proof-search" 1 12 [.list []]) w ()).2.1.session
      0).buffer 0).text) = ((w.session 0).buffer 0).text := by decide +kernel
  have hanswer :
    (runIn (answering id "Z\n") (askAbout 0 0 "proof-search" 1 12 [.list []]) w ()).1.toOption.map
      (fun a => (a.1, a.2.2.text)) = some ("a", "Z\n") := by decide +kernel
  rcases hask : runIn (answering id "Z\n") (askAbout 0 0 "proof-search" 1 12 [.list []]) w () with
    ⟨fault | ⟨name, number, r⟩, w', ⟨⟩⟩
  · rw [hask] at hanswer
    cases hanswer
  · rw [hask] at htext hanswer
    obtain ⟨rfl, hr⟩ := Prod.mk.inj (Option.some.inj hanswer)
    have hstill := (hcomplete _ _ _ _ _ _ { hhole with isLine := htext ▸ hhole.isLine }).2
    have hrewrites := hfills (answering id "Z\n") () () 0 0 .plain [] w w' _ number r _ _ hask
      hstill (by simp)
    rw [htext, show r.text = "Z\n" from hr] at hrewrites
    exact ⟨_, number, r, w', rfl, hrewrites⟩

/-! ## Refinement -/

/-- At a place of a line there is a hole that goes by a name: no letter, digit, underscore or prime
follows the name. A dot may, so that the name of the hole may go on behind it. -/
def GoesBy (name content : List Char) (place : Nat) : Prop :=
  ∃ left right, content = left ++ '?' :: name ++ right ∧ left.length = place ∧
    ∀ c ∈ right.head?, isWordChar c = false ∧ c ≠ '\x27'

namespace GoesBy

variable {name cs : List Char} {c : Char} {place : Nat}

theorem zero_iff : GoesBy name (c :: cs) 0 ↔
    c = '?' ∧ Refinement.startsWithName name cs = true := by
  have hnext : ∀ right : List Char, (∀ c ∈ right.head?, isWordChar c = false ∧ c ≠ '\x27') ↔
      (right.head?.any fun c => isWordChar c || c == '\x27') = false := by
    intro right
    cases right <;> simp
  constructor
  · rintro ⟨left, right, hcs, hleft, hright⟩
    obtain rfl := length_eq_zero_iff.1 hleft
    obtain ⟨rfl, rfl⟩ := List.cons.inj hcs
    refine ⟨rfl, ?_⟩
    simp [Refinement.startsWithName, (hnext right).1 hright]
  · rintro ⟨rfl, hname⟩
    rw [Refinement.startsWithName, Bool.and_eq_true, isPrefixOf_iff_prefix] at hname
    obtain ⟨⟨right, rfl⟩, hend⟩ := hname
    rw [drop_left, Bool.not_eq_true'] at hend
    exact ⟨[], right, rfl, rfl, (hnext right).2 hend⟩

theorem succ_iff : GoesBy name (c :: cs) (place + 1) ↔ GoesBy name cs place := by
  constructor
  · rintro ⟨left, right, hcs, hleft, hright⟩
    cases left with
    | nil => cases hleft
    | cons c' left =>
      obtain ⟨rfl, rfl⟩ := List.cons.inj hcs
      exact ⟨left, right, rfl, Nat.succ.inj hleft, hright⟩
  · rintro ⟨left, right, rfl, rfl, hright⟩
    exact ⟨c :: left, right, rfl, rfl, hright⟩

end GoesBy

/-- The first hole that goes by a name is found. -/
theorem Refinement.findHole?_eq_some_iff {name content : List Char} {place : Nat} :
    findHole? name content = some place ↔
      GoesBy name content place ∧ ∀ k < place, ¬ GoesBy name content k := by
  induction content generalizing place with
  | nil =>
    refine iff_of_false (by simp [findHole?]) ?_
    rintro ⟨⟨left, right, hcs, -⟩, -⟩
    simp at hcs
  | cons c cs ih =>
    unfold findHole?
    split
    · next hfound =>
      have hhere := GoesBy.zero_iff.2 hfound
      cases place with
      | zero => simp [hhere]
      | succ place => exact iff_of_false (by simp) fun h => h.2 0 (Nat.succ_pos _) hhere
    · next hfound =>
      have hhere := mt GoesBy.zero_iff.1 hfound
      cases place with
      | zero => simp [hhere]
      | succ place =>
        simp only [Option.map_eq_some_iff, Nat.add_right_cancel_iff, exists_eq_right, ih,
          GoesBy.succ_iff]
        refine and_congr_right fun _ => ⟨fun h k hk => ?_, fun h k hk => ?_⟩
        · cases k with
          | zero => exact hhere
          | succ k => exact mt GoesBy.succ_iff.1 (h k (Nat.lt_of_succ_lt_succ hk))
        · exact mt GoesBy.succ_iff.2 (h (k + 1) (Nat.succ_lt_succ hk))

theorem goesBy_of_holeAt {b : Buffer} {before left right after : List Char}
    (h : b.HoleAt line column before left name right after) :
    GoesBy name.toList (left ++ '?' :: name.toList ++ right) left.length := by
  refine ⟨left, right, rfl, rfl, fun c hc => ?_⟩
  have hend := h.ends c hc
  simp only [isNameChar, Bool.or_eq_false_iff] at hend
  exact ⟨hend.1.1, by simpa using hend.1.2⟩

/-- The rest of a refinement: the hole is filled, and the document is loaded again. -/
def Refinement.finish (r : Refinement) (sought : String × List (List String)) : Action Edit := do
  let fields ← r.fillHole sought.1
  let _ ← load r.session r.document
  return {
    command := "refine-" ++ r.variant.text, text := sought.1, line := r.line, fields := fields,
    rounds := sought.2.length + 1, offered := sought.2 }

/-- A refinement is one of the hole whose name stands at the point. -/
theorem refine_eq_converse (env : Environment World Await ε) (memory : ε) (e : Editor)
    (variant : Variant) (stem : String) (choices : List String)
    (h : ((w.session s).buffer d).nameAt line column = .ok (name, line)) :
    let r : Refinement := ⟨s, d, e, variant, name, line⟩
    runIn env (refine s d e line column variant stem choices) w memory =
        runIn env (r.converse stem choices >>= r.finish) w memory ∧
      stores env (refine s d e line column variant stem choices) w memory =
        stores env (r.converse stem choices >>= r.finish) w memory := by
  intro r
  have hrefine : refine s d e line column variant stem choices = (do
      let named ← Prog.ofResult (((← session s).buffer d).nameAt line column)
      Refinement.converse ⟨s, d, e, variant, named.1, named.2⟩ stem choices >>=
        Refinement.finish ⟨s, d, e, variant, named.1, named.2⟩) := by
    simp only [refine, fillRefined, bind_assoc, pure_bind]
    rfl
  rw [hrefine]
  show runIn env (Prog.ofResult (((w.session s).buffer d).nameAt line column) >>= _) w memory = _ ∧
    stores env (Prog.ofResult (((w.session s).buffer d).nameAt line column) >>= _) w memory = _
  rw [h]
  exact ⟨rfl, rfl⟩

theorem Untouched.append_editsOnce {x : Replacement} {earlier steps : List (World × World)}
    (hearlier : Untouched earlier) (h : EditsOnce s d x steps) :
    EditsOnce s d x (earlier ++ steps) := by
  obtain ⟨hworks, before, after, rfl, hbefore, hafter⟩ := h
  exact ⟨hworks, earlier ++ before, after, by simp only [append_assoc],
    hearlier.append hbefore, hafter⟩

theorem safe_fillHole_first (r : Refinement) (expression : String) (w : World) :
    Safe (editing r.session r.document) (r.fillHole expression) (Ends r.session r.document
        fun x => x.world = w ∧ FillsFirst r.session r.document r.line r.hole x) w .untouched :=
  safe_fillHole (fun _ => rfl) fun _ x hworld hfills => ⟨x, rfl, rfl, hfills.works, hworld, hfills⟩

/-- A replacement fills the first of the holes that go by the name of the hole at the point. -/
structure FillsNamesake (b : Buffer) (line column : Int) (before left : List Char) (name : String)
    (right : List Char) (x : Replacement) (place : Nat) : Prop where
  start_eq : x.start = Int.ofNat (before.length + place)
  finish_eq : x.finish = x.start + 1 + name.length
  le : place ≤ left.length
  here : GoesBy name.toList (left ++ '?' :: name.toList ++ right) place
  first : ∀ k < place, ¬ GoesBy name.toList (left ++ '?' :: name.toList ++ right) k
  /-- it is the hole at the point exactly if no other comes before -/
  span_iff : b.holeNear line column (some name) = .ok (some (x.start, x.finish)) ↔
    ∀ k < left.length, ¬ GoesBy name.toList (left ++ '?' :: name.toList ++ right) k

theorem FillsFirst.fillsNamesake {b : Buffer} {before left right after : List Char}
    {x : Replacement} (h : FillsFirst s d line name x)
    (hhole : b.HoleAt line column before left name right after)
    (hsame : (x.old s d).text = b.text) :
    ∃ place, FillsNamesake b line column before left name right x place := by
  obtain ⟨before', content, after', place, hline, hfound, hstart, hfinish⟩ := h.found
  obtain ⟨rfl, rfl, rfl⟩ := hhole.isLine.unique (hsame ▸ hline.isLine)
  obtain ⟨hhere, hfirst⟩ := Refinement.findHole?_eq_some_iff.1 hfound
  have hle : place ≤ left.length :=
    Nat.le_of_not_lt fun hlt => hfirst _ hlt (goesBy_of_holeAt hhole)
  have hend : x.finish = x.start + 1 + name.length := by
    rw [hfinish, hstart]
    omega
  refine ⟨place, hstart, hend, hle, hhere, hfirst, ?_⟩
  rw [hhole.holeNear_eq, hend, hstart]
  constructor
  · intro hspan k hk
    obtain ⟨hplace, -⟩ := Prod.mk.inj (Option.some.inj (Except.ok.inj hspan))
    simp only [Int.ofNat_eq_natCast] at hplace
    exact hfirst k (by omega)
  · intro hnone
    obtain rfl : place = left.length :=
      Nat.le_antisymm hle (Nat.le_of_not_lt fun hlt => hnone place hlt hhere)
    rfl

/-- **A refinement fills the first namesake.** The point lies in a hole, and the text is still the
same when the compiler has given the expression. Then the refinement fails with nothing touched, or
it fills the first hole of the line that goes by the name, which stands at the point or before it.
That is the hole that proof search would fill exactly if none before it goes by the name, neither
with the same name nor with one in which a dot follows it. -/
theorem refinement_fills_first_namesake (env : Environment World Await ε) (memory : ε)
    (s d : Nat) (e : Editor) (line column : Int) (variant : Variant) (stem : String)
    (choices : List String) {w : World} {before left right after : List Char} {name : String}
    (hhole : ((w.session s).buffer d).HoleAt line column before left name right after) (hsame :
      (((runIn env (Refinement.converse ⟨s, d, e, variant, name, line⟩ stem choices) w
        memory).2.1.session s).buffer d).text = ((w.session s).buffer d).text) :
    ((∃ fault, (runIn env (refine s d e line column variant stem choices) w memory).1 =
      .error fault) ∧
        Untouched (stores env (refine s d e line column variant stem choices) w memory)) ∨
      ∃ x place, EditsOnce s d x
        (stores env (refine s d e line column variant stem choices) w memory) ∧
        FillsNamesake ((w.session s).buffer d) line column before left name right x place := by
  obtain ⟨hrun, hsteps⟩ := refine_eq_converse env memory e variant stem choices hhole.nameAt_eq
  have hspared :=
    untouched_of_sparing env memory (sparing_converse ⟨s, d, e, variant, name, line⟩ stem choices) w
  rw [hrun, hsteps, stores_bind]
  rcases hsought : runIn env
    (Refinement.converse ⟨s, d, e, variant, name, line⟩ stem choices) w memory with
    ⟨fault | sought, w₁, memory₁⟩
  · rw [runIn_bind_error env hsought, append_nil]
    exact .inl ⟨⟨fault, rfl⟩, hspared⟩
  · have hedits :=
      edits_of_ends env memory₁ (safe_fillHole_first ⟨s, d, e, variant, name, line⟩ sought.1 w₁)
    rw [hsought] at hsame
    rw [runIn_bind_ok env hsought]
    dsimp only
    rw [Refinement.finish, stores_bind]
    rcases hfilled : runIn env (Refinement.fillHole ⟨s, d, e, variant, name, line⟩ sought.1)
      w₁ memory₁ with ⟨fault | fields, w₂, memory₂⟩
    · rw [hfilled] at hedits
      rw [runIn_bind_error env hfilled, append_nil]
      exact .inl ⟨⟨fault, rfl⟩, hspared.append hedits⟩
    · rw [hfilled] at hedits
      obtain ⟨x, honce, -, rfl, hfills⟩ := hedits
      obtain ⟨place, hnamesake⟩ := hfills.fillsNamesake hhole hsame
      refine .inr ⟨x, place, hspared.append_editsOnce (honce.append ?_), hnamesake⟩
      exact untouched_of_sparing env memory₂ (.bind (sparing_load s d) fun _ => .done _) w₂

/-- What the compiler says to a refinement that it accepts: the names that fit, the expression, that
it moved to the directory, and that it loaded the file. -/
def acceptance : List Outcome :=
  [.ofReply true [.list [.str "plus"]], .ofReply true [.str "Z"], .ofReply true [.list []],
    .ofReply true [.list []]]

/-- The point lies in the second hole of the line. The name of the first goes on with a dot, and its
beginning is replaced. -/
theorem refinement_fills_first_namesake_dotted :
    let w := deskWorld "f = (?a.b, ?a)\n"
    let run := runIn scripted (refine 0 0 .plain 1 13 .plain "" ["plus"]) w acceptance
    ((w.session 0).buffer 0).HoleAt 1 13 [] "f = (?a.b, ".toList "a" ")".toList ['\n'] ∧
      ((run.2.1.session 0).buffer 0).text = "f = (Z.b, ?a)\n".toList ∧
      ((w.session 0).buffer 0).holeNear 1 13 (some "a") = .ok (some (11, 13)) ∧
      ∃ x, EditsOnce 0 0 x (stores scripted (refine 0 0 .plain 1 13 .plain "" ["plus"])
        w acceptance) ∧ x.start = 5 ∧ x.finish = 7 := by
  intro w run
  have hhole : ((w.session 0).buffer 0).HoleAt 1 13 [] "f = (?a.b, ".toList "a" ")".toList ['\n'] :=
    ⟨⟨by decide, by decide, .inl rfl, .inr ⟨[], rfl⟩,
      rfl⟩, by decide, by simp [isNameChar, isWordChar],
      by simp [isNameChar, isWordChar], by decide, by decide, by decide, by decide⟩
  have hsame : (((runIn scripted (Refinement.converse ⟨0, 0, .plain, .plain, "a", 1⟩ "" ["plus"]) w
      acceptance).2.1.session 0).buffer 0).text = ((w.session 0).buffer 0).text := by decide +kernel
  have hok : run.1.toBool = true := by decide +kernel
  refine ⟨hhole, by decide +kernel, hhole.holeNear_eq, ?_⟩
  rcases refinement_fills_first_namesake scripted acceptance 0 0 .plain 1 13 .plain "" ["plus"]
    hhole hsame with ⟨⟨fault, hfault⟩, -⟩ | ⟨x, place, honce, hnamesake⟩
  · rw [show run.1 = .error fault from hfault] at hok
    cases hok
  · have hfirst : Refinement.findHole? "a".toList
        ("f = (?a.b, ".toList ++ '?' :: "a".toList ++ ")".toList) = some 5 := by
      decide
    obtain rfl :=
      Option.some.inj
        ((Refinement.findHole?_eq_some_iff.2 ⟨hnamesake.here, hnamesake.first⟩).symm.trans hfirst)
    refine ⟨x, honce, hnamesake.start_eq, ?_⟩
    rw [hnamesake.finish_eq, hnamesake.start_eq]
    rfl

end Client

end IdeMode
