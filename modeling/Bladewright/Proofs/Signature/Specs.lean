import Bladewright.Proofs.Host.Parts
import Bladewright.Proofs.Host.Written
import Bladewright.Proofs.Outcome
import Bladewright.Signature.Spec

/-!
Signatures from data. Every value gives a signature or is refused, except for texts whose reading breaks off: they are
nested too deep for the reader, a set or mapping has a key that is none, or an integer does not fit the real part of a
complex number (`Datum.BreaksOff`).
-/
namespace Bladewright

open Host Numeral Outcome List

namespace Host.Datum

/-! ### Texts that cannot be read -/

/-- Why the reading of an expression breaks off: a key that is none, or an integer beyond all doubles. -/
inductive Breaks : ReadError → Expr → Prop
  | element {es : List Expr} {e : Expr} {d : Datum} :
    e ∈ es → ofExpr e = .ok d → d.isKey = false → Breaks .unfitKey (.set es)
  | key {es : List Expr} {k v : Expr} {d : Datum} :
    .entry (some k) v ∈ es → ofExpr k = .ok d → d.isKey = false → Breaks .unfitKey (.mapping es)
  | sum (op : BinaryOp) {l r : Expr} {n : Int} {negative : Bool} :
    ofSignedNumber l = .ok (.int n) → binary64.round n = .infinite negative → Breaks .tooLarge (.binary op l r)

/-- No part of an expression breaks off its reading for this cause. -/
def Sound (cause : ReadError) (e : Expr) : Prop := ∀ p : Expr, p.IsPart e → ¬ Breaks cause p

section
variable {cause : ReadError}

theorem Sound.child {e c : Expr} (sound : Sound cause e) (child : c ∈ e.children) : Sound cause c :=
  fun p part => sound p (.child child part)

/-- An outcome is a value, or an error of another cause. -/
abbrev Avoids {α : Type} (cause : ReadError) : Except ReadError α → Prop := Meets (· ≠ cause) fun _ => True

theorem Avoids.of_eq {α : Type} {outcome : Except ReadError α} (avoids : Avoids cause outcome) :
    Meets (· ≠ cause) (fun a => outcome = .ok a) outcome := by
  cases outcome with
  | error _ => exact avoids
  | ok _ => exact rfl

variable (own : cause ≠ .malformed)
include own

end

section

variable {parts : List (List Token)} (each : ∀ p ∈ parts, ∃ v, p = [.number v] ∨ p = [.op "-", .number v])
include each

end

end Host.Datum

namespace Signature

end Signature

end Bladewright
