import Mathlib.Data.List.Forall2

namespace Opstream.Results

variable {ε α β : Type}

@[simp] theorem ok_bind (a : α) (f : α → Except ε β) : (Except.ok a >>= f) = f a := rfl

theorem bind_eq_ok_iff {r : Except ε α} {f : α → Except ε β} {b : β} :
    r >>= f = .ok b ↔ ∃ a, r = .ok a ∧ f a = .ok b := by
  cases r <;> simp [bind, Except.bind]

theorem map_eq_ok_iff {r : Except ε α} {f : α → β} {b : β} :
    r.map f = .ok b ↔ ∃ a, r = .ok a ∧ f a = b := by
  cases r <;> simp [Except.map]

theorem exists_map_eq_ok_iff {r : Except ε α} {f : α → β} :
    (∃ b, r.map f = .ok b) ↔ ∃ a, r = .ok a := by
  cases r <;> simp [Except.map]

theorem map_eq_error_iff {r : Except ε α} {f : α → β} {e : ε} :
    r.map f = .error e ↔ r = .error e := by
  cases r <;> simp [Except.map]

theorem mapError_eq_ok_iff {δ : Type} {r : Except ε α} {f : ε → δ} {a : α} :
    r.mapError f = .ok a ↔ r = .ok a := by
  cases r <;> simp [Except.mapError]

theorem mapError_eq_error_iff {δ : Type} {r : Except ε α} {f : ε → δ} {d : δ} :
    r.mapError f = .error d ↔ ∃ e, r = .error e ∧ f e = d := by
  cases r <;> simp [Except.mapError]

theorem mapM_ok (xs : List α) : (xs.map Except.ok).mapM id = (.ok xs : Except ε (List α)) := by
  induction xs with
  | nil => rfl
  | cons x xs ih => rw [List.map_cons, List.mapM_cons, ih]; rfl

theorem mapM_error (xs : List α) (e : ε) (rest : List (Except ε α)) :
    (xs.map Except.ok ++ Except.error e :: rest).mapM id = .error e := by
  rw [List.mapM_append, mapM_ok, List.mapM_cons]
  rfl

theorem mapM_append (rs qs : List (Except ε α)) :
    (rs ++ qs).mapM id = match rs.mapM id, qs.mapM id with
      | .error e, _ => .error e
      | .ok _, .error e => .error e
      | .ok xs, .ok ys => .ok (xs ++ ys) := by
  rw [List.mapM_append]
  cases rs.mapM id with
  | error e => rfl
  | ok xs =>
      cases qs.mapM id with
      | error e => rfl
      | ok ys => rfl

/-- Results either all have a value, or one fails and all before it have one. -/
theorem all_ok_or_first_error (rs : List (Except ε α)) :
    (∃ xs : List α, rs = xs.map .ok) ∨
      ∃ (xs : List α) (e : ε) (rest : List (Except ε α)), rs = xs.map .ok ++ .error e :: rest := by
  induction rs with
  | nil => exact .inl ⟨[], rfl⟩
  | cons r rs ih =>
      cases r with
      | error e => exact .inr ⟨[], e, rs, rfl⟩
      | ok x =>
          rcases ih with ⟨xs, rfl⟩ | ⟨xs, e, rest, rfl⟩
          · exact .inl ⟨x :: xs, rfl⟩
          · exact .inr ⟨x :: xs, e, rest, rfl⟩

theorem forall₂_ok_or_first_error (f : α → Except ε β) (xs : List α) :
    (∃ ys, List.Forall₂ (fun x y => f x = .ok y) xs ys) ∨
      ∃ good bad rest e, xs = good ++ bad :: rest ∧ (∀ x ∈ good, ∃ y, f x = .ok y) ∧
        f bad = .error e := by
  induction xs with
  | nil => exact .inl ⟨[], .nil⟩
  | cons x xs ih =>
      cases hx : f x with
      | error e => exact .inr ⟨[], x, xs, e, rfl, by simp, hx⟩
      | ok y =>
          rcases ih with ⟨ys, hys⟩ | ⟨good, bad, rest, e, rfl, hgood, hbad⟩
          · exact .inl ⟨y :: ys, .cons hx hys⟩
          · exact .inr ⟨x :: good, bad, rest, e, rfl, List.forall_mem_cons.2 ⟨⟨y, hx⟩, hgood⟩, hbad⟩

theorem exists_forall₂_of_ok {f : α → Except ε β} {xs : List α}
    (h : ∀ x ∈ xs, ∃ y, f x = .ok y) : ∃ ys, List.Forall₂ (fun x y => f x = .ok y) xs ys := by
  rcases forall₂_ok_or_first_error f xs with hall | ⟨good, bad, rest, e, rfl, _, hbad⟩
  · exact hall
  · obtain ⟨y, hy⟩ := h bad (List.mem_append_right _ List.mem_cons_self)
    rw [hbad] at hy
    cases hy

theorem mapM_eq_ok_iff {rs : List (Except ε α)} {xs : List α} :
    rs.mapM id = .ok xs ↔ rs = xs.map .ok := by
  constructor
  · intro h
    rcases all_ok_or_first_error rs with ⟨ys, rfl⟩ | ⟨ys, e, rest, rfl⟩
    · rw [mapM_ok] at h
      cases h
      rfl
    · rw [mapM_error] at h
      cases h
  · rintro rfl
    exact mapM_ok xs

theorem mapM_eq_error_iff {rs : List (Except ε α)} {e : ε} :
    rs.mapM id = .error e ↔
      ∃ (xs : List α) (rest : List (Except ε α)), rs = xs.map .ok ++ .error e :: rest := by
  constructor
  · intro h
    rcases all_ok_or_first_error rs with ⟨ys, rfl⟩ | ⟨ys, d, rest, rfl⟩
    · rw [mapM_ok] at h
      cases h
    · rw [mapM_error] at h
      cases h
      exact ⟨ys, rest, rfl⟩
  · rintro ⟨xs, rest, rfl⟩
    exact mapM_error xs e rest

theorem mapM_eq_mapM_id (f : α → Except ε β) (xs : List α) : xs.mapM f = (xs.map f).mapM id := by
  rw [List.mapM_map]
  rfl

theorem mapM_eq_ok_iff_forall₂ {f : α → Except ε β} {xs : List α} {ys : List β} :
    xs.mapM f = .ok ys ↔ List.Forall₂ (fun x y => f x = .ok y) xs ys := by
  rw [mapM_eq_mapM_id, mapM_eq_ok_iff, ← List.forall₂_eq_eq_eq, List.forall₂_map_left_iff,
    List.forall₂_map_right_iff]

theorem exists_of_mapM_eq_error {f : α → Except ε β} {xs : List α} {e : ε}
    (h : xs.mapM f = .error e) : ∃ x ∈ xs, f x = .error e := by
  rw [mapM_eq_mapM_id] at h
  obtain ⟨ys, rest, hxs⟩ := mapM_eq_error_iff.1 h
  apply List.mem_map.1
  rw [hxs]
  exact List.mem_append_right _ List.mem_cons_self

end Opstream.Results
