/-!
# Computations that can fail

What such a computation has done when it has a result: a sequence has gone through each of its
steps, a traversal has succeeded at each element. One that fails has failed at one of them.
-/

namespace ApiLint.Outcome

variable {A B E : Type}

theorem bind_eq_ok_iff {x : Except E A} {f : A → Except E B} {b : B} :
    x >>= f = .ok b ↔ ∃ a, x = .ok a ∧ f a = .ok b := by
  cases x with
  | error e => simp [bind, Except.bind]
  | ok a => simp [bind, Except.bind]

theorem bind_eq_error_iff {x : Except E A} {f : A → Except E B} {e : E} :
    x >>= f = .error e ↔ x = .error e ∨ ∃ a, x = .ok a ∧ f a = .error e := by
  cases x with
  | error d => simp [bind, Except.bind]
  | ok a => simp [bind, Except.bind]

theorem map_eq_ok_iff {x : Except E A} {f : A → B} {b : B} :
    x.map f = .ok b ↔ ∃ a, x = .ok a ∧ f a = b := by
  cases x with
  | error e => simp [Except.map]
  | ok a => simp [Except.map]

theorem mapError_eq_ok_iff {F : Type} {x : Except E A} {f : E → F} {a : A} :
    x.mapError f = .ok a ↔ x = .ok a := by
  cases x with
  | error d =>
    change (.error (f d) : Except F A) = .ok a ↔ _
    simp
  | ok b =>
    change (.ok b : Except F A) = .ok a ↔ _
    simp

theorem map_eq_error_iff {x : Except E A} {f : A → B} {e : E} :
    x.map f = .error e ↔ x = .error e := by
  cases x with
  | error d => simp [Except.map]
  | ok a => simp [Except.map]

theorem mapError_eq_error_iff {F : Type} {x : Except E A} {f : E → F} {e : F} :
    x.mapError f = .error e ↔ ∃ d, x = .error d ∧ f d = e := by
  cases x with
  | error d =>
    change (.error (f d) : Except F A) = .error e ↔ _
    simp
  | ok b =>
    change (.ok b : Except F A) = .error e ↔ _
    simp

theorem pure_eq_ok_iff {a b : A} : (pure a : Except E A) = .ok b ↔ a = b := by
  simp [pure, Except.pure]

theorem mapM_eq_ok_iff {f : A → Except E B} {value : A → B}
    (hf : ∀ x y, f x = .ok y → value x = y) {xs : List A} {ys : List B} :
    xs.mapM f = .ok ys ↔ (∀ x ∈ xs, f x = .ok (value x)) ∧ ys = xs.map value := by
  induction xs generalizing ys with
  | nil =>
    rw [List.mapM_nil, pure_eq_ok_iff]
    simp [eq_comm]
  | cons x xs ih =>
    simp only [List.mapM_cons, bind_eq_ok_iff, pure_eq_ok_iff, List.forall_mem_cons, List.map_cons]
    constructor
    · rintro ⟨y, hy, zs, hzs, rfl⟩
      obtain rfl := hf x y hy
      obtain ⟨hall, rfl⟩ := ih.1 hzs
      exact ⟨⟨hy, hall⟩, rfl⟩
    · rintro ⟨⟨hx, hall⟩, rfl⟩
      exact ⟨value x, hx, xs.map value, ih.2 ⟨hall, rfl⟩, rfl⟩

theorem mapM_eq_ok_iff_eq_map {f : A → Except E B} {back : B → A}
    (hf : ∀ x y, f x = .ok y ↔ x = back y) {xs : List A} {ys : List B} :
    xs.mapM f = .ok ys ↔ xs = ys.map back := by
  induction xs generalizing ys with
  | nil =>
    rw [List.mapM_nil, pure_eq_ok_iff]
    cases ys <;> simp
  | cons x xs ih =>
    simp only [List.mapM_cons, bind_eq_ok_iff, pure_eq_ok_iff, hf, ih]
    constructor
    · rintro ⟨y, rfl, zs, rfl, rfl⟩
      rfl
    · intro h
      obtain ⟨y, zs, rfl, hy, hzs⟩ := List.map_eq_cons_iff.1 h.symm
      exact ⟨y, hy.symm, zs, hzs.symm, rfl⟩

theorem mapM_eq_error_iff {f : A → Except E B} {xs : List A} {e : E} :
    xs.mapM f = .error e ↔ ∃ before x after, xs = before ++ x :: after ∧
      (∀ y ∈ before, ∃ b, f y = .ok b) ∧ f x = .error e := by
  induction xs with
  | nil => simp [pure, Except.pure]
  | cons x xs ih =>
    rw [List.mapM_cons, bind_eq_error_iff]
    constructor
    · rintro (hx | ⟨b, hb, h⟩)
      · exact ⟨[], x, xs, rfl, List.forall_mem_nil _, hx⟩
      · rcases bind_eq_error_iff.1 h with hxs | ⟨_, -, hpure⟩
        · obtain ⟨before, y, after, rfl, hbefore, hy⟩ := ih.1 hxs
          exact ⟨x :: before, y, after, rfl, List.forall_mem_cons.2 ⟨⟨b, hb⟩, hbefore⟩, hy⟩
        · cases hpure
    · rintro ⟨before, y, after, hxs, hbefore, hy⟩
      cases before with
      | nil =>
        obtain ⟨rfl, rfl⟩ := List.cons.inj hxs
        exact .inl hy
      | cons z before =>
        obtain ⟨rfl, rfl⟩ := List.cons.inj hxs
        obtain ⟨⟨b, hb⟩, hbefore⟩ := List.forall_mem_cons.1 hbefore
        exact .inr ⟨b, hb, bind_eq_error_iff.2 (.inl (ih.2 ⟨before, y, after, rfl, hbefore, hy⟩))⟩

theorem exists_of_mapM_eq_error {f : A → Except E B} {xs : List A} {e : E}
    (h : xs.mapM f = .error e) : ∃ x ∈ xs, f x = .error e := by
  obtain ⟨before, x, after, rfl, -, hx⟩ := mapM_eq_error_iff.1 h
  exact ⟨x, by simp, hx⟩

/-- Traversals agree that agree at each element, but for one at which the second would fail with
something that it has not failed with. -/
theorem mapM_congr {f g : A → Except E B} {xs : List A}
    (h : ∀ x ∈ xs, f x = g x ∨ ∃ e, g x = .error e ∧ xs.mapM g ≠ .error e) :
    xs.mapM f = xs.mapM g := by
  induction xs with
  | nil => rfl
  | cons x xs ih =>
    obtain ⟨hx, hxs⟩ := List.forall_mem_cons.1 h
    rw [List.mapM_cons] at hx hxs
    rw [List.mapM_cons, List.mapM_cons]
    cases hg : g x with
    | error e =>
      obtain hf | ⟨e', he', hne⟩ := hx
      · rw [hf, hg]
        rfl
      · rw [he'] at hne
        exact absurd rfl hne
    | ok y =>
      have hf : f x = .ok y := by
        obtain hf | ⟨e, he, -⟩ := hx
        · rw [hf, hg]
        · rw [hg] at he
          cases he
      have hrest : xs.mapM f = xs.mapM g := ih fun z hz => (hxs z hz).imp_right
        fun ⟨e, he, hne⟩ => ⟨e, he, fun hall => hne (by rw [hg, hall]; rfl)⟩
      rw [hf, hrest]

theorem exists_of_forall_eq_ok {f : A → Except E B} {xs : List A}
    (h : ∀ x ∈ xs, ∃ y, f x = .ok y) :
    ∃ ys, xs.map f = ys.map .ok ∧ xs.mapM f = .ok ys := by
  induction xs with
  | nil => exact ⟨[], rfl, rfl⟩
  | cons x xs ih =>
    obtain ⟨⟨y, hy⟩, hxs⟩ := List.forall_mem_cons.1 h
    obtain ⟨ys, hmap, hall⟩ := ih hxs
    refine ⟨y :: ys, by rw [List.map_cons, List.map_cons, hy, hmap], ?_⟩
    rw [List.mapM_cons, hy, hall]
    rfl

theorem foldlM_map_eq {C : Type} {f : C → B → C} {g : A → Except E B} {xs : List A} {c : C} :
    xs.foldlM (fun c x => (g x).map (f c)) c = (xs.mapM g).map fun ys => ys.foldl f c := by
  induction xs generalizing c with
  | nil => rfl
  | cons x xs ih =>
    rw [List.foldlM_cons, List.mapM_cons]
    cases g x with
    | error e => rfl
    | ok y =>
      refine (ih (c := f c y)).trans ?_
      cases xs.mapM g with
      | error e => rfl
      | ok ys => rfl

theorem foldlM_eq_error_iff {f : B → A → Except E B} {xs : List A} {b : B} {e : E} :
    xs.foldlM f b = .error e ↔ ∃ before x after c, xs = before ++ x :: after ∧
      before.foldlM f b = .ok c ∧ f c x = .error e := by
  induction xs generalizing b with
  | nil => simp [pure, Except.pure]
  | cons x xs ih =>
    rw [List.foldlM_cons, bind_eq_error_iff]
    constructor
    · rintro (hx | ⟨c, hc, h⟩)
      · exact ⟨[], x, xs, b, rfl, rfl, hx⟩
      · obtain ⟨before, y, after, d, rfl, hd, hy⟩ := ih.1 h
        refine ⟨x :: before, y, after, d, rfl, ?_, hy⟩
        rw [List.foldlM_cons, bind_eq_ok_iff]
        exact ⟨c, hc, hd⟩
    · rintro ⟨before, y, after, d, hxs, hd, hy⟩
      cases before with
      | nil =>
        obtain ⟨rfl, rfl⟩ := List.cons.inj hxs
        cases hd
        exact .inl hy
      | cons z before =>
        obtain ⟨rfl, rfl⟩ := List.cons.inj hxs
        rw [List.foldlM_cons, bind_eq_ok_iff] at hd
        obtain ⟨c, hc, hd⟩ := hd
        exact .inr ⟨c, hc, ih.2 ⟨before, y, after, d, rfl, hd, hy⟩⟩

theorem foldlM_append_of_eq_ok {f : B → A → Except E B} {xs : List A} {b c : B}
    (h : xs.foldlM f b = .ok c) (ys : List A) : (xs ++ ys).foldlM f b = ys.foldlM f c := by
  rw [List.foldlM_append, h]
  rfl

theorem exists_foldlM_eq_error {f : B → A → Except E B} {xs : List A} {x : A} (hx : x ∈ xs)
    (h : ∀ b, ∃ e, f b x = .error e) (b : B) : ∃ e, xs.foldlM f b = .error e := by
  obtain ⟨before, after, rfl⟩ := List.append_of_mem hx
  simp only [List.foldlM_append, List.foldlM_cons]
  cases before.foldlM f b with
  | error e => exact ⟨e, rfl⟩
  | ok c =>
    obtain ⟨e, he⟩ := h c
    exact ⟨e, bind_eq_error_iff.2 (.inr ⟨c, rfl, bind_eq_error_iff.2 (.inl he)⟩)⟩

theorem foldlM_induction {f : B → A → Except E B} {motive : B → Prop} {xs : List A} {b c : B}
    (hb : motive b) (hstep : ∀ a ∈ xs, ∀ b c, motive b → f b a = .ok c → motive c)
    (h : xs.foldlM f b = .ok c) : motive c := by
  induction xs generalizing b with
  | nil =>
    rw [List.foldlM_nil, pure_eq_ok_iff] at h
    exact h ▸ hb
  | cons x xs ih =>
    rw [List.foldlM_cons, bind_eq_ok_iff] at h
    obtain ⟨d, hd, h⟩ := h
    have hmotive : motive d := hstep x List.mem_cons_self b d hb hd
    exact ih hmotive (fun a ha => hstep a (List.mem_cons_of_mem x ha)) h

theorem foldlM_related {A' B' : Type} {related : B → B' → Prop} {f : B → A → Except E B}
    (f' : B' → A' → Except E B') (other : A → A') {xs : List A} {b c : B} {b' : B'}
    (hb : related b b') (hstep : ∀ a ∈ xs, ∀ b b' c, related b b' → f b a = .ok c →
      ∃ c', f' b' (other a) = .ok c' ∧ related c c') (h : xs.foldlM f b = .ok c) :
    ∃ c', (xs.map other).foldlM f' b' = .ok c' ∧ related c c' := by
  induction xs generalizing b b' with
  | nil =>
    rw [List.foldlM_nil, pure_eq_ok_iff] at h
    exact ⟨b', rfl, h ▸ hb⟩
  | cons x xs ih =>
    rw [List.foldlM_cons, bind_eq_ok_iff] at h
    obtain ⟨d, hd, h⟩ := h
    obtain ⟨d', hd', hrelated⟩ := hstep x List.mem_cons_self b b' d hb hd
    obtain ⟨c', hc', hend⟩ := ih hrelated (fun a ha => hstep a (List.mem_cons_of_mem x ha)) h
    refine ⟨c', ?_, hend⟩
    rw [List.map_cons, List.foldlM_cons, bind_eq_ok_iff]
    exact ⟨d', hd', hc'⟩

end ApiLint.Outcome
