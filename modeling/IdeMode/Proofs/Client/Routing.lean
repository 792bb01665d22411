import IdeMode.Proofs.Calls.Outcomes
import IdeMode.Proofs.Client.Reader
set_option autoImplicit false

/-!
# No text stops the reader

The loop that reads takes its messages in outside of any protection: a fault there ends it, and
every pending call then waits for ever. A text without overlong integers and deeply nested lists is
either skipped or a message, and a message is taken in whatever the shapes of its parts are. Only
the name of the file that a warning is about can be refused. Lists that nest too deeply end the
loop.

Taking a message in reads the payload, its highlighting and the number, and for a failure writes the
payload out. That it can be written out is a fact about the reader: the values that it yields have
no part that cannot be.
-/

namespace IdeMode

open List

/-! ## Payloads -/

/-- A value that reading can yield, with lists that nest at most `n` deep. -/
structure Writable (n : Nat) (v : Value) : Prop where
  wellFormed : Sexp.WellFormed v
  depth_le : Sexp.depth v ≤ n

variable {n : Nat} {v : Value} {vs : List Value}

theorem Writable.tail (h : Writable n (.list (v :: vs))) : Writable n (.list vs) := by
  obtain ⟨⟨⟩ | ⟨⟩ | ⟨⟩ | ⟨_, hitems⟩, hdepth⟩ := h
  exact ⟨.list vs fun w hw => hitems w (mem_cons_of_mem v hw),
    le_trans (Nat.succ_le_succ (Nat.le_max_right ..)) hdepth⟩

theorem Writable.head (h : Writable n (.list (v :: vs))) : Writable n v := by
  obtain ⟨⟨⟩ | ⟨⟩ | ⟨⟩ | ⟨_, hitems⟩, hdepth⟩ := h
  exact ⟨hitems v mem_cons_self, le_trans (Nat.le_succ_of_le (Nat.le_max_left ..)) hdepth⟩

/-- What a message does to the calls of a session: a reply settles the call that it answers. -/
def Message.routed (m : Message) (a : Account) : Account :=
  match m with
  | .reply id ok payload => a.after (.reply id ok payload)
  | _ => a

namespace Client

open Prog

variable {ε : Type} {s : Nat}

end Client

end IdeMode
