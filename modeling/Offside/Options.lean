import Offside.Automaton
import Offside.Source

/-!
Options of a parse. The features are read when it begins and written when it ends, so that one
parse hands them to the next.
-/

namespace Offside

/-- What a parse is to find. -/
inductive StartRule
  /-- a module: any number of statements -/
  | file
  /-- one statement -/
  | single
  /-- one expression, or several with commas -/
  | eval
  deriving DecidableEq, Inhabited

namespace StartRule

def symbol : StartRule → Symbol
  | .file => .fileInput
  | .single => .singleInput
  | .eval => .evalInput

def name (r : StartRule) : String := r.symbol.name

end StartRule

/-- These are the symbols that a whole input can be. -/
theorem Symbol.isStart_iff {s : Symbol} : s.isStart = true ↔ ∃ r : StartRule, r.symbol = s := by
  constructor
  · intro h
    cases s with
    | fileInput => exact ⟨.file, rfl⟩
    | singleInput => exact ⟨.single, rfl⟩
    | evalInput => exact ⟨.eval, rfl⟩
    | _ => cases h
  · rintro ⟨r, rfl⟩
    cases r <;> rfl

structure Flags where
  /-- read the input as UTF-8, whatever it says of itself -/
  ignoreCookie : Bool
  /-- `async` and `await` are keywords everywhere -/
  asyncAlways : Bool
  /-- leave blocks open where the input ends in the middle of a line -/
  dontImplyDedent : Bool
  deriving DecidableEq, Inhabited

namespace Flags

def unset : Flags := ⟨false, false, false⟩

/-- The flags as the bits of a number. -/
def bits (f : Flags) : Nat :=
  f.ignoreCookie.toNat + 2 * f.asyncAlways.toNat + 4 * f.dontImplyDedent.toNat

def decodeMode (f : Flags) : DecodeMode := if f.ignoreCookie then .raw else .cookie

end Flags

structure Options where
  flags : Flags
  future : Future
  pragmaCapacity : Nat
  pragmaLimit? : Option Nat
  deriving DecidableEq, Inhabited

namespace Options

def defaultPragmaCapacity : Nat := 10

def ofFlags (flags : Flags) : Options := ⟨flags, 0, defaultPragmaCapacity, none⟩

end Options
end Offside
