/-!
# Results with an error or a value

When a result that was made from others has a value, and when it has an error. `mem_of_mapM_eq_ok`
says which values come from working off a list.
-/

namespace ModuleSearch

variable {ε ε' α β : Type} {x : Except ε α} {f : α → β}

instance decidableExistsOk {P : α → Prop} [∀ a, Decidable (P a)] (x : Except ε α) :
    Decidable (∃ a, x = .ok a ∧ P a) :=
  match x with
  | .ok a => decidable_of_iff (P a) (by simp)
  | .error _ => isFalse (by simp)

theorem map_eq_ok_iff {b : β} : x.map f = .ok b ↔ ∃ a, x = .ok a ∧ f a = b := by
  cases x <;> simp [Except.map]

theorem map_eq_error_iff {e : ε} : x.map f = .error e ↔ x = .error e := by
  cases x <;> simp [Except.map]

theorem mapError_eq_ok_iff {g : ε → ε'} {a : α} : x.mapError g = .ok a ↔ x = .ok a := by
  cases x with
  | error e => constructor <;> rintro ⟨⟩
  | ok b => constructor <;> rintro ⟨⟩ <;> rfl

theorem bind_eq_ok_iff {k : α → Except ε β} {b : β} :
    (x >>= k) = .ok b ↔ ∃ a, x = .ok a ∧ k a = .ok b := by
  cases x <;> simp [bind, Except.bind]

theorem bind_eq_error_iff {k : α → Except ε β} {e : ε} :
    (x >>= k) = .error e ↔ x = .error e ∨ ∃ a, x = .ok a ∧ k a = .error e := by
  cases x <;> simp [bind, Except.bind]

theorem exists_bind_pure_eq_ok_iff :
    (∃ b, (x >>= fun a => pure (f a)) = .ok b) ↔ ∃ a, x = .ok a := by
  cases x <;> simp [bind, Except.bind, pure, Except.pure]

theorem bind_pure_eq_error_iff {e : ε} : (x >>= fun a => pure (f a)) = .error e ↔ x = .error e := by
  cases x <;> simp [bind, Except.bind, pure, Except.pure]

/-- A list is worked off if and only if each of its elements has a value. -/
theorem exists_mapM_eq_ok_iff {k : α → Except ε β} {xs : List α} :
    (∃ ys, xs.mapM k = .ok ys) ↔ ∀ a ∈ xs, ∃ b, k a = .ok b := by
  induction xs with
  | nil => exact ⟨by simp, fun _ => ⟨[], rfl⟩⟩
  | cons a rest ih =>
      rw [List.forall_mem_cons, ← ih]
      simp only [List.mapM_cons, bind_eq_ok_iff]
      constructor
      · rintro ⟨_, b, hb, ys, hys, -⟩
        exact ⟨⟨b, hb⟩, ys, hys⟩
      · rintro ⟨⟨b, hb⟩, ys, hys⟩
        exact ⟨b :: ys, b, hb, ys, hys, rfl⟩

theorem mem_of_mapM_eq_ok {k : α → Except ε β} {xs : List α} {ys : List β}
    (h : xs.mapM k = .ok ys) {b : β} : b ∈ ys ↔ ∃ a ∈ xs, k a = .ok b := by
  induction xs generalizing ys with
  | nil =>
      obtain rfl : [] = ys := Except.ok.inj h
      simp
  | cons a rest ih =>
      simp only [List.mapM_cons, bind_eq_ok_iff] at h
      obtain ⟨b', hb', others, hothers, hys⟩ := h
      obtain rfl : b' :: others = ys := Except.ok.inj hys
      simp [ih hothers, hb', eq_comm]

theorem mapM_congr {k k' : α → Except ε β} {xs : List α} (h : ∀ a ∈ xs, k a = k' a) :
    xs.mapM k = xs.mapM k' := by
  induction xs with
  | nil => rfl
  | cons a rest ih =>
      obtain ⟨ha, hrest⟩ := List.forall_mem_cons.mp h
      rw [List.mapM_cons, List.mapM_cons, ha, ih hrest]

theorem mapM_map_congr {γ : Type} {f : α → β} {k : β → Except ε γ} {k' : α → Except ε γ}
    {xs : List α} (h : ∀ a ∈ xs, k (f a) = k' a) : (xs.map f).mapM k = xs.mapM k' := by
  rw [List.mapM_map]
  exact mapM_congr h

/-- What holds between elements of a list holds between their values. -/
theorem pairwise_of_mapM_eq_ok {k : α → Except ε β} {R : α → α → Prop} {S : β → β → Prop}
    (hRS : ∀ a a' b b', R a a' → k a = .ok b → k a' = .ok b' → S b b') {xs : List α}
    {ys : List β} (h : xs.mapM k = .ok ys) (hxs : xs.Pairwise R) : ys.Pairwise S := by
  induction xs generalizing ys with
  | nil =>
      obtain rfl : [] = ys := Except.ok.inj h
      exact .nil
  | cons a rest ih =>
      simp only [List.mapM_cons, bind_eq_ok_iff] at h
      obtain ⟨b, hb, others, hothers, hys⟩ := h
      obtain rfl : b :: others = ys := Except.ok.inj hys
      obtain ⟨ha, hrest⟩ := List.pairwise_cons.mp hxs
      refine List.pairwise_cons.mpr ⟨fun b' hb' => ?_, ih hothers hrest⟩
      obtain ⟨a', ha', hk⟩ := (mem_of_mapM_eq_ok hothers).mp hb'
      exact hRS a a' b b' (ha a' ha') hb hk

/-- Working off a list fails at its first element without a value. -/
theorem exists_first_of_mapM_eq_error {k : α → Except ε β} {xs : List α} {e : ε}
    (h : xs.mapM k = .error e) : ∃ before a after, xs = before ++ a :: after ∧
      (∀ a' ∈ before, ∃ b, k a' = .ok b) ∧ k a = .error e := by
  induction xs with
  | nil => cases h
  | cons a rest ih =>
      simp only [List.mapM_cons, bind_eq_error_iff] at h
      obtain h | ⟨b, hb, h | ⟨ys, -, h⟩⟩ := h
      · exact ⟨[], a, rest, rfl, by simp, h⟩
      · obtain ⟨before, a', after, rfl, hbefore, h⟩ := ih h
        exact ⟨a :: before, a', after, rfl, List.forall_mem_cons.mpr ⟨⟨b, hb⟩, hbefore⟩, h⟩
      · cases h

theorem exists_of_mapM_eq_error {k : α → Except ε β} {xs : List α} {e : ε}
    (h : xs.mapM k = .error e) : ∃ a ∈ xs, k a = .error e := by
  obtain ⟨before, a, after, rfl, -, ha⟩ := exists_first_of_mapM_eq_error h
  exact ⟨a, by simp, ha⟩

end ModuleSearch
