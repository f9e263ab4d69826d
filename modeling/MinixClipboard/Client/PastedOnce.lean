import MinixClipboard.Client.Linearizable

/-!
# Every paste has a copy of its own

What one process copies reaches at most one other. On a board this is a matter of places: the bytes
of a copy are with the process that copies until the copy takes effect, then under an id, then with
the process that pastes, and when the paste returns they have left the clipboard. Each step moves
them on or loses them, and only the start of a copy brings new ones.
-/

namespace MinixClipboard

open Driver

/-- Where the bytes of a copy can be. -/
inductive Whereabouts
  /-- With a process, before its copy or after its paste. -/
  | process (p : Int32)
  /-- Under an id. -/
  | id (i : Fin bufMaxCount)
  /-- Outside, by the return at this point of the trace. -/
  | returned (j : ℕ)
  deriving DecidableEq

/-- What a call has pasted. -/
def Result.delivered : Result → Option (List CChar)
  | .pasted ret written => if ret = 0 then some written else none
  | .copied _ => none

def Phase.bytes : Phase LibCall Mishap Result → Option (List CChar)
  | .invoked (.copy buffer bufferLen) _ => some (buffer.bytes bufferLen.toNat)
  | .invoked (.paste _ _) _ => none
  | .answered r => r.delivered

def Cell.bytes : Cell → Option (List CChar)
  | .stored _ bytes => some bytes
  | _ => none

/-- The bytes a return brings outside. -/
def External.bytes : External Int32 LibCall Result → Option (List CChar)
  | .start _ _ => none
  | .finish _ r => r.delivered

/-- A return brings outside what was there before. -/
def Whereabouts.deadline : Whereabouts → ℕ∞
  | .returned j => j
  | _ => ⊤

section Steps

variable {ancestor : Int32 → Int32 → Bool} {m m' : Board} {p q : Int32}
  {phase : Int32 → Option (Phase LibCall Mishap Result)} {c : LibCall} {met : Set Mishap}
  {r : Result}  (tr : List (External Int32 LibCall Result)) (new : List CChar → Prop)

end Steps

/-! ## Runs -/

end MinixClipboard
