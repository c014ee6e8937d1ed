import Bladewright.Proofs.Coeff.Power
import Mathlib.Data.Nat.Choose.Sum

/-!
The terms of a whole power of a sum: the exponents that are listed, with their numbers, are those of the binomial
theorem for two summands and of the multinomial theorem for more.
-/
namespace Bladewright.Coeff

open List Scalar

variable {r : Reading}

theorem foldl_choose (n k : Nat) :
    (List.range k).foldl (fun c i => c * (n - i) / (i + 1)) 1 = n.choose k := by
  induction k with
  | zero => simp
  | succ k ih =>
    rw [range_succ, foldl_append, ih, foldl_cons, foldl_nil]
    exact Nat.div_eq_of_eq_mul_left (Nat.succ_pos k) (Nat.choose_succ_right_eq n k).symm

theorem sum_map_range (n : Nat) (f : Nat → ℚ) : ((List.range n).map f).sum = ∑ k ∈ Finset.range n, f k := by
  induction n with
  | zero => simp
  | succ n ih => rw [range_succ, map_append, sum_append, ih, Finset.sum_range_succ]; simp

def monomial (xs : List ℚ) (ks : List Nat) : ℚ := (List.zipWith (fun x k => x ^ k) xs ks).prod

def termSum (xs : List ℚ) (terms : List (List Nat × Nat)) : ℚ :=
  (terms.map fun t => (t.2 : ℚ) * monomial xs t.1).sum

theorem termSum_flatMap {ι : Type} (xs : List ℚ) (is : List ι) (f : ι → List (List Nat × Nat)) :
    termSum xs (is.flatMap f) = (is.map fun i => termSum xs (f i)).sum := by
  induction is with
  | nil => rfl
  | cons i is ih => simp [termSum, map_append] at ih ⊢; rw [ih]

/-- Terms taken in pairs from the outside in are all terms. -/
theorem sum_outside_in (n : Nat) (f : Nat → ℚ) :
    ∑ k ∈ Finset.range (n / 2 + 1), (if 2 * k = n then f k else f k + f (n - k)) =
      ∑ k ∈ Finset.range (n + 1), f k := by
  induction n using Nat.twoStepInduction generalizing f with
  | zero => simp
  | one => simp [Finset.sum_range_succ]
  | more n ih _ =>
    have half : (n + 2) / 2 + 1 = n / 2 + 1 + 1 := by omega
    have inner : ∀ k ∈ Finset.range (n / 2 + 1),
        (if 2 * (k + 1) = n + 2 then f (k + 1) else f (k + 1) + f (n + 2 - (k + 1))) =
          if 2 * k = n then f (k + 1) else f (k + 1) + f (n - k + 1) := by
      intro k mem
      have small : k < n / 2 + 1 := Finset.mem_range.mp mem
      have last : n + 2 - (k + 1) = n - k + 1 := by omega
      rw [last]
      congr 1
      exact propext ⟨by omega, by omega⟩
    rw [half, Finset.sum_range_succ', Finset.sum_congr rfl inner, ih fun k => f (k + 1),
      Finset.sum_range_succ f (n + 2), Finset.sum_range_succ' f (n + 1)]
    simp
    ring

theorem termSum_binomials (x y : ℚ) (n : Nat) : termSum [x, y] (binomials n) = (x + y) ^ n := by
  have pair (k : Nat) (small : k < n / 2 + 1) :
      termSum [x, y] (let c := (List.range k).foldl (fun c i => c * (n - i) / (i + 1)) 1
        if 2 * k = n then [([k, k], c)] else [([k, n - k], c), ([n - k, k], c)]) =
      if 2 * k = n then x ^ k * y ^ (n - k) * n.choose k
      else x ^ k * y ^ (n - k) * n.choose k + x ^ (n - k) * y ^ (n - (n - k)) * n.choose (n - k) := by
    simp only [foldl_choose]
    split
    · rename_i middle
      have same : n - k = k := by omega
      simp [termSum, monomial, same]
      ring
    · have back : n - (n - k) = k := by omega
      rw [back, Nat.choose_symm (by omega)]
      simp [termSum, monomial]
      ring
  unfold binomials
  rw [termSum_flatMap, sum_map_range, Finset.sum_congr rfl fun k mem => pair k (Finset.mem_range.mp mem),
    sum_outside_in n fun k => x ^ k * y ^ (n - k) * n.choose k, add_pow]

theorem length_of_mem_multinomials {m n : Nat} {t : List Nat × Nat} (mem : t ∈ multinomials m n) :
    t.1.length = m := by
  induction m generalizing n t with
  | zero =>
    simp only [multinomials] at mem
    split at mem
    · simp only [mem_singleton] at mem
      rw [mem]
      rfl
    · cases mem
  | succ m ih =>
    simp only [multinomials, mem_flatMap, mem_map] at mem
    obtain ⟨k, -, u, inside, rfl⟩ := mem
    simp [ih inside]

theorem termSum_multinomials (xs : List ℚ) (n : Nat) :
    termSum xs (multinomials xs.length n) = xs.sum ^ n := by
  induction xs using List.reverseRecOn generalizing n with
  | nil =>
    simp only [length_nil, multinomials, sum_nil]
    split
    · rename_i zero
      simp [termSum, monomial, zero]
    · rename_i zero
      simp [termSum, zero_pow zero]
  | append_singleton xs x ih =>
    have last (k : Nat) (terms : List (List Nat × Nat)) (c : Nat) (lengths : ∀ t ∈ terms, t.1.length = xs.length) :
        termSum (xs ++ [x]) (terms.map fun t => (t.1 ++ [k], c * t.2)) = x ^ k * c * termSum xs terms := by
      unfold termSum
      rw [← sum_map_mul_left, map_map]
      refine congrArg List.sum (map_congr_left fun t mem => ?_)
      have split : monomial (xs ++ [x]) (t.1 ++ [k]) = monomial xs t.1 * x ^ k := by
        simp [monomial, zipWith_append (lengths t mem).symm]
      simp only [Function.comp_apply, split]
      push_cast
      ring
    rw [length_append, length_singleton, multinomials, termSum_flatMap, sum_map_range, sum_append,
      sum_singleton, add_comm xs.sum x, add_pow]
    refine Finset.sum_congr rfl fun k _ => ?_
    have terms := last k (multinomials xs.length (n - k)) (n.choose k) fun t mem => length_of_mem_multinomials mem
    simp only [foldl_choose]
    rw [terms, ih]
    ring

theorem termSum_powerTerms (xs : List ℚ) (n : Nat) : termSum xs (powerTerms xs.length n) = xs.sum ^ n := by
  unfold powerTerms
  split
  · rename_i two
    obtain ⟨x, y, rfl⟩ := length_eq_two.mp two
    rw [termSum_binomials]
    simp
  · exact termSum_multinomials xs n

end Bladewright.Coeff
