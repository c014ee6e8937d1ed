import Bladewright.Proofs.Code.Flattened
import Bladewright.Proofs.Compilation.Stages
import Bladewright.Proofs.Evaluation.Simulation

/-!
Correctness of compilation: with numbers for its host inputs, flattened code of a program evaluates to the components
of the multivector that the expanded program denotes over those numbers.
-/
namespace Bladewright

open Host Evaluation

/-! ### Direct evaluation with numbers -/

/-- Evaluation over the rationals: host scalars and components are the numbers of a reading. -/
def Reading.engine (r : Reading) : Engine ℚ where
  number := Scalar.rational
  input source := (r.scalar source).getD 0
  component := r.component
  isZero x := decide (x = 0)
  normal x := x
  inverse x := x⁻¹

/-- Direct evaluation with numbers follows symbolic evaluation: every symbolic coefficient has the number as its
value that stands in its place. -/
theorem simulates_symbolic (r : Reading) :
    Simulates (Coeff.Means r) (fun source => (r.scalar source).isSome) symbolic r.engine where
  laws :=
    { add := fun left right => left.add right
      mul := fun left right => (left.mul right).expand
      neg := fun operand => operand.neg }
  zero := Coeff.means_zero
  one := Coeff.means_one
  number q := Coeff.means_num q
  input known := ⟨.sym known, rfl⟩
  component source index := by
    cases index with
    | none => exact ⟨.only source, rfl⟩
    | some i => exact ⟨.component source i, rfl⟩
  isZero := by
    intro a x means zero
    obtain ⟨defined, rfl⟩ := means
    cases defined with
    | num q => simpa [symbolic, Coeff.isZero, Reading.engine] using zero
    | _ => cases zero
  normal means := means.expand
  inverse := by
    intro a x means nonzero
    exact means.inv (by simpa [Reading.engine] using nonzero)

/-- Compilation is correct. Let a program with exact literals be accepted, in flattened form and without a type for
the result, and let its host inputs have numbers under which direct evaluation divides by nothing that is zero. Then
the expanded program denotes a multivector over these numbers, and the code evaluates in exact arithmetic to its
components: those of the grades that are present, ascending, in the order of the blades. -/
theorem compile_denotes_components {signature : Datum} {source : Surface.Source} {table : Table}
    {program : Surface.Program} {c : Compilation}
    (accepted : (compile signature source ⟨"flattened", none⟩ table).outcome.1 = .ok c)
    (read : Surface.readProgram source = .ok program)
    (literals : ∀ v ∈ program.literals ++ table.literals, v.IsExact) (inputs : Inputs)
    (assigned : ∀ source ∈ c.expanded.scalars, (inputs.reading.scalar source).isSome)
    (nonzero : evaluate inputs.reading.engine c.signature c.expanded ≠ .error .zeroDivisor) :
    Signature.ofSpec signature = .ok c.signature ∧
    (∃ bound, table.defineAll program.bindings = .ok bound ∧
      Expansion.expand bound program.expression = .ok c.expanded) ∧
    ∃ A components, evaluate inputs.reading.engine c.signature c.expanded = .ok A ∧
      A.Flattens c.signature.dimension components ∧ inputs.valuation.evalTuple c.code = some components := by
  obtain ⟨program', bound, terms, stages⟩ := compile_stages accepted
  obtain rfl : program = program' := Except.ok.inj (read.symm.trans stages.read)
  refine ⟨stages.signature, ⟨bound, stages.defined, stages.expanded⟩, ?_⟩
  have exactly : ∀ v ∈ c.expanded.literals, ∃ q, v = .exact q := fun v mem =>
    literals v (List.mem_append.mpr (stages.literals mem))
  have mirrors := (simulates_symbolic inputs.reading).evaluated c.signature c.expanded exactly assigned
  rcases mirrors terms stages.evaluated with stopped | ⟨A, evaluated, related⟩
  · exact absurd stopped nonzero
  · have generated := stages.code
    rw [stages.result] at generated
    obtain ⟨l, elements, laid, emitted, code⟩ := Code.generate_flattened generated
    obtain ⟨components, flattens, means⟩ := (Layout.flattens_ofResult laid).related Coeff.means_zero related
    refine ⟨A, components, evaluated, flattens, ?_⟩
    rw [code]
    exact Code.evalTuple_emitAll means emitted

def quotientSource : Surface.Source :=
  .module [.annotated (.name "a") (.name "Vector") none true,
    .expression (.binary .add (.binary .div (.name "e1") (.name "a"))
      (.call (.name "grade") [.name "k", .int 1] []))]

def quotientTable : Table := { Table.builtin with references := [("k", .host "t")] }

def quotientValuation : Valuation where
  leaf
    | .name "t" => some 3
    | _ => none
  component _ _ := 4

theorem quotientSource_literals : ∃ program, Surface.readProgram quotientSource = .ok program ∧
    ∀ v ∈ program.literals ++ quotientTable.literals, v.IsExact := by
  have whole : (Surface.readProgram quotientSource).toOption.map (fun program =>
      (program.literals ++ quotientTable.literals).all (·.toInt?.isSome)) = some true := by
    decide +kernel
  cases read : Surface.readProgram quotientSource with
  | error e =>
    rw [read] at whole
    cases whole
  | ok program =>
    rw [read] at whole
    have integers := List.all_eq_true.mp (Option.some.inj whole)
    refine ⟨program, rfl, fun v mem => ?_⟩
    obtain ⟨n, found⟩ := Option.isSome_iff_exists.mp (integers v mem)
    exact ⟨n, Scalar.exact_of_toInt? found⟩

theorem compile_denotes_quotient : ∃ c A,
    (compile (.int 1) quotientSource ⟨"flattened", none⟩ quotientTable).outcome.1 = .ok c ∧
    c.expanded.scalars = ["t"] ∧
    evaluate quotientValuation.inputs.reading.engine c.signature c.expanded = .ok A ∧
    A.Flattens c.signature.dimension [1 / 4] ∧ quotientValuation.evalTuple c.code = some [1 / 4] := by
  generalize compiled : (compile (.int 1) quotientSource ⟨"flattened", none⟩ quotientTable).outcome.1 = outcome
  have computed : outcome.toOption.map (fun c => (c.expanded.scalars, quotientValuation.evalTuple c.code,
      (evaluate quotientValuation.inputs.reading.engine c.signature c.expanded).isOk)) =
      some (["t"], some [1 / 4], true) := by
    rw [← compiled]
    decide +kernel
  cases outcome with
  | error e => cases computed
  | ok c =>
    simp only [Except.toOption, Option.map_some, Option.some.injEq, Prod.mk.injEq] at computed
    obtain ⟨scalars, tuple, evaluated⟩ := computed
    obtain ⟨program, read, literals⟩ := quotientSource_literals
    have assigned : ∀ source ∈ c.expanded.scalars,
        (quotientValuation.inputs.reading.scalar source).isSome := by
      rw [scalars]
      decide +kernel
    have nonzero : evaluate quotientValuation.inputs.reading.engine c.signature c.expanded ≠
        .error .zeroDivisor := by
      intro stopped
      rw [stopped] at evaluated
      cases evaluated
    obtain ⟨-, -, A, components, denoted, flattens, code⟩ :=
      compile_denotes_components compiled read literals quotientValuation.inputs assigned nonzero
    obtain rfl : components = [1 / 4] := Option.some.inj (code.symm.trans tuple)
    exact ⟨c, A, rfl, scalars, denoted, flattens, tuple⟩

end Bladewright
