import Bladewright.Proofs.Coeff.Atoms
import Bladewright.Proofs.Coeff.Power

/-!
Renaming host inputs.
-/
namespace Bladewright.Coeff

open List

variable {f : String → Option String}

def newName (f : String → Option String) (s : String) : String := (f s).getD s

/-! ### Renaming part by part -/

theorem rename_of_none {e : Coeff} (unchanged : rename? f e = none) : rename f e = e := by
  rw [rename, unchanged]
  rfl

theorem map_rename_of_none {es : List Coeff} (unchanged : renameList? f es = none) : es.map (rename f) = es := by
  induction es with
  | nil => rfl
  | cons e es ih =>
    rw [renameList?] at unchanged
    split at unchanged
    · rw [map_cons, rename_of_none ‹_›, ih ‹_›]
    · cases unchanged

theorem map_rename_of_some {es es' : List Coeff} (changed : renameList? f es = some es') : es.map (rename f) = es' := by
  induction es generalizing es' with
  | nil => cases changed
  | cons e es ih =>
    rw [renameList?] at changed
    split at changed
    · cases changed
    · cases changed
      refine congrArg (rename f e :: ·) ?_
      cases rest : renameList? f es with
      | none => exact map_rename_of_none rest
      | some es' => exact ih rest

@[simp] theorem rename_num (c : Scalar) : rename f (num c) = num c := rfl

@[simp] theorem rename_ofInt (n : ℤ) : rename f (ofInt n) = ofInt n := rfl

@[simp] theorem rename_const (c : Constant) : rename f (const c) = const c := rfl

@[simp] theorem rename_sym (s : String) : rename f (sym s) = sym (newName f s) := by
  unfold rename newName
  rw [rename?]
  cases f s <;> rfl

@[simp] theorem rename_app (name : String) (args : List Coeff) :
    rename f (app name args) = app name (args.map (rename f)) := by
  unfold rename
  rw [rename?]
  cases changed : renameList? f args with
  | none => exact congrArg (app name) (map_rename_of_none changed).symm
  | some args' => exact congrArg (app name) (map_rename_of_some changed).symm

theorem rename_pow (b e : Coeff) : rename f (pow b e) = pow (rename f b) (rename f e) ∨
    rename f (pow b e) = raise (rename f b) (rename f e) := by
  unfold rename
  rw [rename?]
  split
  · rename_i base exponent
    rw [base, exponent]
    exact .inl rfl
  · exact .inr rfl

theorem rename_prod (c : Scalar) (fs : List Coeff) : rename f (prod c fs) = prod c (fs.map (rename f)) ∨
    rename f (prod c fs) = mulAll (num c :: fs.map (rename f)) := by
  rw [rename, rename?]
  cases changed : renameList? f fs with
  | none => exact .inl (congrArg (prod c) (map_rename_of_none changed).symm)
  | some fs' => exact .inr (by rw [map_rename_of_some changed]; rfl)

theorem rename_sum (c : Scalar) (ts : List Coeff) : rename f (sum c ts) = sum c (ts.map (rename f)) ∨
    rename f (sum c ts) = addAll (num c :: ts.map (rename f)) := by
  rw [rename, rename?]
  cases changed : renameList? f ts with
  | none => exact .inl (congrArg (sum c) (map_rename_of_none changed).symm)
  | some ts' => exact .inr (by rw [map_rename_of_some changed]; rfl)

mutual

theorem rename?_of_no_names (keeps : ∀ s, f s = none) : ∀ e, rename? f e = none
  | num _ | const _ => by rw [rename?]
  | sym s => by
    rw [rename?, keeps]
    rfl
  | app _ args => by
    rw [rename?, renameList?_of_no_names keeps args]
    rfl
  | pow b e => by rw [rename?, rename?_of_no_names keeps b, rename?_of_no_names keeps e]
  | prod _ fs => by
    rw [rename?, renameList?_of_no_names keeps fs]
    rfl
  | sum _ ts => by
    rw [rename?, renameList?_of_no_names keeps ts]
    rfl

theorem renameList?_of_no_names (keeps : ∀ s, f s = none) : ∀ es, renameList? f es = none
  | [] => by rw [renameList?]
  | e :: es => by rw [renameList?, rename?_of_no_names keeps e, renameList?_of_no_names keeps es]

end

/-! ### What a renaming keeps -/

section

variable {Q : Coeff → Prop}

theorem over_rename_pow {b e : Coeff} (base : Over Q (rename f b)) (exponent : Over Q (rename f e)) :
    Over Q (rename f (pow b e)) := by
  rcases rename_pow (f := f) b e with same | built
  · exact same ▸ .pow base exponent
  · exact built ▸ over_raise base exponent

theorem over_rename_prod {c : Scalar} {fs : List Coeff} (factors : ∀ g ∈ fs, Over Q (rename f g)) :
    Over Q (rename f (prod c fs)) := by
  have each : ∀ g ∈ fs.map (rename f), Over Q g := forall_mem_map.mpr factors
  rcases rename_prod (f := f) c fs with same | built
  · exact same ▸ .prod c each
  · exact built ▸ over_mulAll (forall_mem_cons.mpr ⟨.num c, each⟩)

theorem over_rename_sum {c : Scalar} {ts : List Coeff} (terms : ∀ t ∈ ts, Over Q (rename f t)) :
    Over Q (rename f (sum c ts)) := by
  have each : ∀ t ∈ ts.map (rename f), Over Q t := forall_mem_map.mpr terms
  rcases rename_sum (f := f) c ts with same | built
  · exact same ▸ .sum c each
  · exact built ▸ over_addAll (forall_mem_cons.mpr ⟨.num c, each⟩)

theorem over_rename {P : Coeff → Prop} {e : Coeff} (made : Over P e) (atoms : ∀ a, P a → Over Q (rename f a)) :
    Over Q (rename f e) := by
  induction made with
  | num c => exact .num c
  | const c => exact .const c
  | sym own => exact atoms _ own
  | app own => exact atoms _ own
  | pow _ _ base exponent => exact over_rename_pow base exponent
  | prod c _ factors => exact over_rename_prod factors
  | sum c _ terms => exact over_rename_sum terms

end

theorem mem_symbols_rename : ∀ {e : Coeff}, ∀ name ∈ (rename f e).symbols, ∃ s ∈ e.symbols, newName f s = name
  | num c | const c => by simp [symbols]
  | sym s => by simp [symbols]
  | app g args => by
    intro name mem
    rw [rename_app, mem_symbols_app] at mem
    obtain ⟨_, renamed, named⟩ := mem
    obtain ⟨a, listed, rfl⟩ := mem_map.mp renamed
    obtain ⟨s, own, same⟩ := mem_symbols_rename name named
    exact ⟨s, mem_symbols_app.mpr ⟨a, listed, own⟩, same⟩
  | pow b e => by
    refine over_names.mp (over_rename_pow (over_names.mpr fun name mem => ?_) (over_names.mpr fun name mem => ?_))
    · obtain ⟨s, own, same⟩ := mem_symbols_rename name mem
      exact ⟨s, by simp [symbols, own], same⟩
    · obtain ⟨s, own, same⟩ := mem_symbols_rename name mem
      exact ⟨s, by simp [symbols, own], same⟩
  | prod c fs => by
    refine over_names.mp (over_rename_prod fun g listed => over_names.mpr fun name mem => ?_)
    obtain ⟨s, own, same⟩ := mem_symbols_rename name mem
    exact ⟨s, mem_symbols_prod.mpr ⟨g, listed, own⟩, same⟩
  | sum c ts => by
    refine over_names.mp (over_rename_sum fun t listed => over_names.mpr fun name mem => ?_)
    obtain ⟨s, own, same⟩ := mem_symbols_rename name mem
    exact ⟨s, mem_symbols_sum.mpr ⟨t, listed, own⟩, same⟩

theorem values_map_rename {r r' : Reading} {es : List Coeff} (means : ∀ e ∈ es, Means r' (rename f e) (value r e)) :
    AllDefined r' (es.map (rename f)) ∧ (es.map (rename f)).map (value r') = es.map (value r) := by
  refine ⟨forall_mem_map.mpr fun e mem => (means e mem).defined, ?_⟩
  rw [map_map]
  exact map_congr_left fun e mem => (means e mem).value_eq

theorem means_rename {r r' : Reading} {e : Coeff} (defined : Defined r e)
    (atoms : Over (fun a => ∀ x, Means r a x → Means r' (rename f a) x) e) : Means r' (rename f e) (value r e) := by
  induction defined with
  | num q => exact means_num q
  | sym known => exact over_sym.mp atoms _ (Defined.sym known).means
  | only s => exact over_app.mp atoms _ (Defined.only s).means
  | component s i => exact over_app.mp atoms _ (Defined.component s i).means
  | @pow b n base nonzero ih =>
    have means := ih (over_pow.mp atoms).1
    rw [value_pow]
    rcases rename_pow (f := f) b (ofInt n) with same | built
    · rw [same, rename_ofInt]
      exact means_pow means nonzero
    · rw [built, rename_ofInt, ← means.value_eq]
      exact means_raise means.defined (means.value_eq ▸ nonzero)
  | @prod fs c factors ih =>
    obtain ⟨defined, values⟩ := values_map_rename fun g mem => ih g mem (over_prod.mp atoms g mem)
    rw [value_prod, ← values]
    rcases rename_prod (f := f) (.exact c) fs with same | built
    · exact same ▸ means_prod c defined
    · rw [built]
      have means := means_mulAll (allDefined_cons.mpr ⟨.num c, defined⟩)
      rwa [product_cons] at means
  | @sum ts c terms ih =>
    obtain ⟨defined, values⟩ := values_map_rename fun t mem => ih t mem (over_sum.mp atoms t mem)
    rw [value_sum, ← values]
    rcases rename_sum (f := f) (.exact c) ts with same | built
    · exact same ▸ means_sum c defined
    · rw [built]
      have means := means_addAll (allDefined_cons.mpr ⟨.num c, defined⟩)
      rwa [total_cons] at means

end Bladewright.Coeff
