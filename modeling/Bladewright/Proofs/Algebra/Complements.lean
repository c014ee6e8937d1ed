import Bladewright.Proofs.Algebra.Contractions

/-!
Complements and the exterior antiproduct, which multiplies what its factors lack. The two complements undo each other,
so the antiproduct is the outer product seen through one of them and has its laws.
-/
namespace Bladewright.Terms

open List Blade Evaluation

variable {α : Type} [CommRing α] (s : Signature)

/-- The outer product of what the factors lack, seen through the complements. -/
def exteriorAntiproduct (A B : Terms α) : Terms α :=
  ((A.rightComplement s).outerProduct s (B.rightComplement s)).leftComplement s

/-! ### Complements -/

omit [CommRing α] in
theorem complement_complement {full : Nat} {f g : Nat → α → α} (inverse : ∀ blade c, g (full ^^^ blade) (f blade c) = c)
    (A : Terms α) : (A.complement full f).complement full g = A := by
  obtain ⟨entries, distinct⟩ := A
  simp only [complement, map_map, Function.comp_def, xor_xor_self, inverse, Prod.mk.eta, map_id']

@[simp] theorem leftComplement_rightComplement (A : Terms α) : (A.rightComplement s).leftComplement s = A := by
  refine complement_complement (fun blade c => ?_) A
  rw [xor_xor_self]
  exact signed_signed (rightSign_cases (fullBlade s) blade) c

@[simp] theorem rightComplement_leftComplement (A : Terms α) : (A.leftComplement s).rightComplement s = A := by
  refine complement_complement (fun blade c => ?_) A
  rw [xor_xor_self]
  exact signed_signed (leftSign_cases (fullBlade s) blade) c

@[simp] theorem blades_rightComplement (A : Terms α) :
    (A.rightComplement s).blades = A.blades.map (fullBlade s ^^^ ·) :=
  blades_complement _ _ A

@[simp] theorem blades_leftComplement (A : Terms α) : (A.leftComplement s).blades = A.blades.map (fullBlade s ^^^ ·) :=
  blades_complement _ _ A

theorem Same.leftComplement {A B : Terms α} (same : A.Same B) : (A.leftComplement s).Same (B.leftComplement s) := by
  obtain ⟨blades, coefficients⟩ := same_iff.mp same
  refine same_iff.mpr ⟨fun blade => ?_, ?_⟩
  · simp only [blades_leftComplement, mem_map, blades]
  · rw [combination_leftComplement, combination_leftComplement, coefficients]

/-! ### The outer product -/

theorem one_outerProduct (A : Terms α) : ((single 0 1).outerProduct s A).Same A := by
  refine same_iff.mpr ⟨fun blade => ?_, ?_⟩
  · rw [mem_blades_outerProduct]
    simp [blades, single]
  · rw [combination_outerProduct, combination_single]
    induction A.combination using Finsupp.induction_linear with
    | zero => simp
    | add X Y ih ih' => rw [convolve_add_right, ih, ih']
    | single b y => simp [outerSign, reorderingSign_eq_prod]

theorem outerProduct_one (A : Terms α) : (A.outerProduct s (single 0 1)).Same A := by
  refine same_iff.mpr ⟨fun blade => ?_, ?_⟩
  · rw [mem_blades_outerProduct]
    simp [blades, single]
  · rw [combination_outerProduct, combination_single]
    induction A.combination using Finsupp.induction_linear with
    | zero => simp
    | add X Y ih ih' => rw [convolve_add_left, ih, ih']
    | single b y => simp [outerSign]

theorem leftComplement_twice (A B : Terms α) :
    (((A.outerProduct s B).leftComplement s).leftComplement s).Same
      (((A.leftComplement s).leftComplement s).outerProduct s ((B.leftComplement s).leftComplement s)) := by
  refine same_iff.mpr ⟨fun blade => ?_, ?_⟩
  · simp only [blades_leftComplement, map_map, mem_blades_outerProduct, Function.comp_def, xor_xor_self,
      map_id_fun', id_eq]
  · simp only [combination_leftComplement, combination_outerProduct, relabel_relabel]
    refine relabel_convolve (fun a b => ?_) (fun a b => ?_) _ _
    · simp only [xor_xor_self]
    · simp only [xor_xor_self]
      rw [mul_comm]
      exact congrArg _ (doubleSign_xor (fullBlade s) a b)

theorem outerProduct_single {a b : Nat} (apart : a &&& b = 0) (x y : α) :
    (single a x).outerProduct s (single b y) = single (a ^^^ b) (signedMul (reorderingSign a b) x y) := by
  simp [outerProduct, wedgeTerm, single, apart, addAt, accumulate, empty]

theorem signedMul_signed {sign : Int} (unit : sign = 1 ∨ sign = -1) : signedMul sign (1 : α) (signed sign 1) = 1 := by
  rcases unit with rfl | rfl <;> simp [signedMul, signed]

theorem signedMul_signed' {sign : Int} (unit : sign = 1 ∨ sign = -1) : signedMul sign (signed sign 1) (1 : α) = 1 := by
  rcases unit with rfl | rfl <;> simp [signedMul, signed]

theorem rightComplement_single (blade : Nat) (c : α) :
    (single blade c).rightComplement s = single (fullBlade s ^^^ blade) (signed (rightSign (fullBlade s) blade) c) := rfl

theorem leftComplement_single (blade : Nat) (c : α) :
    (single blade c).leftComplement s = single (fullBlade s ^^^ blade) (signed (leftSign (fullBlade s) blade) c) := rfl

theorem blade_outerProduct_rightComplement {blade : Nat} (small : blade < 2 ^ s.dimension) :
    (single blade (1 : α)).outerProduct s ((single blade 1).rightComplement s) = pseudoscalar s := by
  have apart : blade &&& (fullBlade s ^^^ blade) = 0 := and_complement small
  rw [rightComplement_single, outerProduct_single s apart, rightSign, signedMul_signed (reorderingSign_cases _ _),
    Nat.xor_comm, Nat.xor_assoc, Nat.xor_self, Nat.xor_zero, pseudoscalar]

theorem leftComplement_outerProduct_blade {blade : Nat} (small : blade < 2 ^ s.dimension) :
    ((single blade (1 : α)).leftComplement s).outerProduct s (single blade 1) = pseudoscalar s := by
  have apart : (fullBlade s ^^^ blade) &&& blade = 0 := (Nat.and_comm _ _).trans (and_complement small)
  rw [leftComplement_single, outerProduct_single s apart, leftSign, signedMul_signed' (reorderingSign_cases _ _),
    Nat.xor_assoc, Nat.xor_self, Nat.xor_zero, pseudoscalar]

/-! ### The exterior antiproduct -/

theorem exteriorAntiproduct_assoc (A B C : Terms α) :
    (exteriorAntiproduct s (exteriorAntiproduct s A B) C).Same
      (exteriorAntiproduct s A (exteriorAntiproduct s B C)) := by
  unfold exteriorAntiproduct
  rw [rightComplement_leftComplement, rightComplement_leftComplement]
  exact (outerProduct_assoc s _ _ _).leftComplement s

theorem rightComplement_pseudoscalar : (pseudoscalar s : Terms α).rightComplement s = single 0 1 := by
  simp [pseudoscalar, rightComplement, complement, single, signed]

theorem pseudoscalar_exteriorAntiproduct (A : Terms α) : (exteriorAntiproduct s (pseudoscalar s) A).Same A := by
  have through := (one_outerProduct s (A.rightComplement s)).leftComplement s
  rw [leftComplement_rightComplement] at through
  rwa [exteriorAntiproduct, rightComplement_pseudoscalar]

theorem exteriorAntiproduct_pseudoscalar (A : Terms α) : (exteriorAntiproduct s A (pseudoscalar s)).Same A := by
  have through := (outerProduct_one s (A.rightComplement s)).leftComplement s
  rw [leftComplement_rightComplement] at through
  rwa [exteriorAntiproduct, rightComplement_pseudoscalar]

theorem leftComplement_exteriorAntiproduct (A B : Terms α) :
    ((exteriorAntiproduct s A B).leftComplement s).Same
      ((A.leftComplement s).outerProduct s (B.leftComplement s)) := by
  have twice := leftComplement_twice s (A.rightComplement s) (B.rightComplement s)
  rwa [leftComplement_rightComplement, leftComplement_rightComplement] at twice

theorem leftComplement_gradePart_rightComplement {A : Terms α} (within : A.Within s.dimension) :
    ((A.rightComplement s).gradePart 0).leftComplement s = A.gradePart s.dimension := by
  have selected : ∀ e ∈ A.entries, (grade (fullBlade s ^^^ e.1) == 0) = (grade e.1 == s.dimension) := by
    intro e mem
    have together := grade_complement (within.entries e mem)
    have same : grade (fullBlade s ^^^ e.1) = 0 ↔ grade e.1 = s.dimension := by
      rw [← together]
      simp [fullBlade, Signature.size]
    simp [same]
  have complemented : (A.rightComplement s).gradePart 0 = (A.gradePart s.dimension).rightComplement s := by
    simp only [gradePart, rightComplement, complement, filter, mk.injEq, filter_map, Function.comp_def]
    rw [filter_congr selected]
  rw [complemented, leftComplement_rightComplement]

/-- The two complements undo each other and complete every basis blade to the pseudoscalar, each on its side. The
exterior antiproduct, which is what its built-in name denotes, is associative with the pseudoscalar as its unit on both
sides, and both complements turn it into the outer product. The antiscalar part is the part of the highest grade. -/
theorem complement_duality (A B C : Terms α) :
    (A.rightComplement s).leftComplement s = A ∧ (A.leftComplement s).rightComplement s = A ∧
    (∀ blade < 2 ^ s.dimension,
      (single blade (1 : α)).outerProduct s ((single blade 1).rightComplement s) = pseudoscalar s ∧
      ((single blade (1 : α)).leftComplement s).outerProduct s (single blade 1) = pseudoscalar s) ∧
    (exteriorAntiproduct s (exteriorAntiproduct s A B) C).Same
      (exteriorAntiproduct s A (exteriorAntiproduct s B C)) ∧
    (exteriorAntiproduct s (pseudoscalar s) A).Same A ∧ (exteriorAntiproduct s A (pseudoscalar s)).Same A ∧
    (exteriorAntiproduct s A B).rightComplement s = (A.rightComplement s).outerProduct s (B.rightComplement s) ∧
    ((exteriorAntiproduct s A B).leftComplement s).Same ((A.leftComplement s).outerProduct s (B.leftComplement s)) ∧
    ∀ (table : Table) (E : Engine α) (x y : Tree), table.KeepsBuiltins →
      Denotes table E s x A → Denotes table E s y B →
      Denotes table E s (.call "exterior_antiproduct" [x, y]) (exteriorAntiproduct s A B) ∧
      Denotes table E s (.symbol "I") (pseudoscalar s) ∧
      Denotes table E s (.call "antiscalar" [x]) (A.gradePart s.dimension) := by
  refine ⟨leftComplement_rightComplement s A, rightComplement_leftComplement s A, fun blade small => ?_,
    exteriorAntiproduct_assoc s A B C, pseudoscalar_exteriorAntiproduct s A, exteriorAntiproduct_pseudoscalar s A,
    rightComplement_leftComplement s _, leftComplement_exteriorAntiproduct s A B, ?_⟩
  · exact ⟨blade_outerProduct_rightComplement s small, leftComplement_outerProduct_blade s small⟩
  · intro table E x y kept left right
    refine ⟨left.exteriorAntiproduct kept right, denotes_pseudoscalar kept, ?_⟩
    rw [← leftComplement_gradePart_rightComplement s left.within]
    exact left.antiscalar kept

/-- In three dimensions the planes of two basis bivectors meet in a basis vector, the antiscalar part of a bivector is
empty, and a bivector whose indices are not adjacent is completed from both sides. -/
theorem complement_duality_planes :
    Denotes .builtin integerEngine ⟨2, 0, 1⟩ (.call "exterior_antiproduct" [.blade [0, 1], .blade [1, 2]])
      (exteriorAntiproduct ⟨2, 0, 1⟩ (single 3 1) (single 6 1)) ∧
    (exteriorAntiproduct ⟨2, 0, 1⟩ (single 3 (1 : ℤ)) (single 6 1)).entries = [(2, 1)] ∧
    Denotes .builtin integerEngine ⟨2, 0, 1⟩ (.call "antiscalar" [.blade [0, 1]]) empty ∧
    (single 5 (1 : ℤ)).outerProduct ⟨2, 0, 1⟩ ((single 5 1).rightComplement ⟨2, 0, 1⟩) = pseudoscalar ⟨2, 0, 1⟩ ∧
    ((single 5 (1 : ℤ)).leftComplement ⟨2, 0, 1⟩).outerProduct ⟨2, 0, 1⟩ (single 5 1) = pseudoscalar ⟨2, 0, 1⟩ := by
  have first : Denotes .builtin integerEngine ⟨2, 0, 1⟩ (.blade [0, 1]) (single 3 1) := ⟨_, rfl, rfl⟩
  have second : Denotes .builtin integerEngine ⟨2, 0, 1⟩ (.blade [1, 2]) (single 6 1) := ⟨_, rfl, rfl⟩
  obtain ⟨-, -, completed, -, -, -, -, -, calls⟩ :=
    complement_duality ⟨2, 0, 1⟩ (single 3 (1 : ℤ)) (single 6 1) empty
  obtain ⟨product, -, part⟩ := calls _ _ _ _ Table.keepsBuiltins_builtin first second
  exact ⟨product, rfl, part, completed 5 (by decide)⟩

end Bladewright.Terms
