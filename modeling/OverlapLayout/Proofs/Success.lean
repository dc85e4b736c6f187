import Mathlib
/-!
  What a computation that succeeds tells.

  * `bind_ok`: both parts of a sequence succeeded.
  * `mapM_ok_*`: what a traversal that succeeds tells about its result.
  * `foldlM_ok_induction`: a property every successful step keeps holds after a successful
    fold; `foldlM_ok_eq_foldl`: a fold whose successful steps are those of a pure step gives
    the pure fold; `foldlM_eq_ok_of_room`: a fold whose steps succeed while there is room
    for them succeeds.
  * `FailsOnly E x`: every failure of `x` is one that `E` allows. It is kept by `bind`, `map`,
    traversals and folds, so the failures of a pipeline are read off its steps; a computation
    none of whose failures is allowed succeeds (`FailsOnly.exists_ok`).
-/

namespace OverlapLayout

section traverse

variable {α β ε : Type} {f : α → Except ε β}

theorem mapM_ok_cons {x : α} {xs : List α} {ys : List β} :
    (x :: xs).mapM f = .ok ys ↔ ∃ y ys', f x = .ok y ∧ xs.mapM f = .ok ys' ∧ ys = y :: ys' := by
  rw [List.mapM_cons]
  cases hx : f x with
  | error e => simp [bind, Except.bind]
  | ok y =>
    cases hxs : xs.mapM f with
    | error e => simp [bind, Except.bind]
    | ok ys' =>
      simp only [bind, Except.bind, pure, Except.pure, Except.ok.injEq]
      constructor
      · rintro rfl; exact ⟨y, ys', rfl, rfl, rfl⟩
      · rintro ⟨y', ys'', hy, hys, rfl⟩
        cases hy; cases hys; rfl

theorem mapM_ok_length {xs : List α} {ys : List β} (h : xs.mapM f = .ok ys) :
    ys.length = xs.length := by
  induction xs generalizing ys with
  | nil => simp [pure, Except.pure] at h; subst h; rfl
  | cons x xs ih =>
    obtain ⟨y, ys', -, hys, rfl⟩ := mapM_ok_cons.1 h
    simp [ih hys]

theorem mapM_ok_mem {xs : List α} {ys : List β} (h : xs.mapM f = .ok ys) {y : β} (hy : y ∈ ys) :
    ∃ x ∈ xs, f x = .ok y := by
  induction xs generalizing ys with
  | nil => simp [pure, Except.pure] at h; subst h; simp at hy
  | cons x xs ih =>
    obtain ⟨y', ys', hx, hys, rfl⟩ := mapM_ok_cons.1 h
    rcases List.mem_cons.1 hy with rfl | hy
    · exact ⟨x, List.mem_cons_self, hx⟩
    · obtain ⟨x', hx', hfx⟩ := ih hys hy
      exact ⟨x', List.mem_cons_of_mem _ hx', hfx⟩

theorem mapM_ok_getElem? {xs : List α} {ys : List β} (h : xs.mapM f = .ok ys) (i : Nat) :
    (ys[i]? = none ↔ xs[i]? = none) ∧ ∀ x, xs[i]? = some x → ∃ y, ys[i]? = some y ∧ f x = .ok y := by
  induction xs generalizing ys i with
  | nil =>
    simp [pure, Except.pure] at h
    subst h; simp
  | cons x xs ih =>
    obtain ⟨y, ys', hx, hys, rfl⟩ := mapM_ok_cons.1 h
    cases i with
    | zero => simp [hx]
    | succ i => simpa using ih hys i

/-- Keeping the elements that pass a test commutes with a traversal that does not
change the outcome of the test. -/
theorem mapM_ok_filter {p : α → Bool} {q : β → Bool} (hpq : ∀ x y, f x = .ok y → q y = p x)
    {xs : List α} {ys : List β} (h : xs.mapM f = .ok ys) :
    (xs.filter p).mapM f = .ok (ys.filter q) := by
  induction xs generalizing ys with
  | nil => simp [pure, Except.pure] at h; subst h; rfl
  | cons x xs ih =>
    obtain ⟨y, ys', hx, hys, rfl⟩ := mapM_ok_cons.1 h
    rw [List.filter_cons, List.filter_cons, hpq x y hx]
    split
    · exact mapM_ok_cons.2 ⟨y, _, hx, ih hys, rfl⟩
    · exact ih hys

theorem mapM_ok_array {xs : Array α} {ys : Array β} (h : xs.mapM f = .ok ys) :
    xs.toList.mapM f = .ok ys.toList := by
  rw [Array.mapM_eq_mapM_toList] at h
  cases hl : xs.toList.mapM f with
  | error e => simp [hl, Functor.map, Except.map] at h
  | ok l =>
    simp only [hl, Functor.map, Except.map, Except.ok.injEq] at h
    subst h
    rfl

theorem bind_ok {γ : Type} {x : Except ε α} {f : α → Except ε γ} {b : γ} (h : (x >>= f) = .ok b) :
    ∃ a, x = .ok a ∧ f a = .ok b := by
  cases hx : x with
  | error e => rw [hx] at h; cases h
  | ok a => rw [hx] at h; exact ⟨a, rfl, h⟩

/-- A traversal whose steps keep a feature of each element keeps the list of features. -/
theorem mapM_ok_map {γ : Type} (F : α → γ) (G : β → γ) (hfg : ∀ x y, f x = .ok y → G y = F x)
    {xs : List α} {ys : List β} (h : xs.mapM f = .ok ys) : ys.map G = xs.map F := by
  induction xs generalizing ys with
  | nil => simp [pure, Except.pure] at h; subst h; rfl
  | cons x xs ih =>
    obtain ⟨y, ys', hx, hys, rfl⟩ := mapM_ok_cons.1 h
    simp [hfg x y hx, ih hys]

/-- A property kept by every successful step holds after a successful fold. -/
theorem foldlM_ok_induction {σ : Type} (P : σ → Prop) {step : σ → α → Except ε σ} (l : List α)
    (hstep : ∀ s x s', x ∈ l → P s → step s x = .ok s' → P s') :
    ∀ s r, P s → l.foldlM step s = .ok r → P r := by
  induction l with
  | nil =>
    intro s r hs h
    simp only [List.foldlM_nil, pure, Except.pure, Except.ok.injEq] at h
    exact h ▸ hs
  | cons x l ih =>
    intro s r hs h
    rw [List.foldlM_cons] at h
    obtain ⟨s', hx, h⟩ := bind_ok h
    exact ih (fun s y s'' hy => hstep s y s'' (List.mem_cons_of_mem x hy)) s' r
      (hstep s x s' List.mem_cons_self hs hx) h

/-- A fold whose successful steps are those of a pure step gives, when it succeeds, the pure
fold. -/
theorem foldlM_ok_eq_foldl {σ : Type} {step : σ → α → Except ε σ} {g : σ → α → σ}
    (hstep : ∀ s x s', step s x = .ok s' → s' = g s x) :
    ∀ (l : List α) (s r : σ), l.foldlM step s = .ok r → r = l.foldl g s := by
  intro l
  induction l with
  | nil =>
    intro s r h
    simp only [List.foldlM_nil, pure, Except.pure, Except.ok.injEq] at h
    exact h.symm
  | cons x l ih =>
    intro s r h
    rw [List.foldlM_cons] at h
    obtain ⟨s', hx, h⟩ := bind_ok h
    rw [List.foldl_cons, ← hstep s x s' hx]
    exact ih s' r h

/-- A fold succeeds, with the pure fold, when every step from a state with room for `n + 1`
more steps succeeds as the pure step does and leaves room for `n` more. -/
theorem foldlM_eq_ok_of_room {σ : Type} {step : σ → α → Except ε σ} {g : σ → α → σ}
    (Room : Nat → σ → Prop) (hstep : ∀ n s x, Room (n + 1) s → step s x = .ok (g s x))
    (hroom : ∀ n s x, Room (n + 1) s → Room n (g s x)) :
    ∀ (l : List α) (s : σ), Room l.length s → l.foldlM step s = .ok (l.foldl g s) := by
  intro l
  induction l with
  | nil => intro s _; rfl
  | cons x l ih =>
    intro s hs
    rw [List.foldlM_cons, hstep l.length s x hs, List.foldl_cons]
    exact ih (g s x) (hroom l.length s x hs)

theorem mapError_eq_ok {ε' : Type} {x : Except ε α} {f : ε → ε'} {a : α} :
    x.mapError f = .ok a ↔ x = .ok a := by
  cases x <;> simp [Except.mapError]

end traverse

/-- Every failure of `x` is one that `E` allows. -/
def FailsOnly {ε α : Type} (E : ε → Prop) (x : Except ε α) : Prop := ∀ e, x = .error e → E e

namespace FailsOnly

variable {ε α β : Type} {E : ε → Prop}

theorem pure (a : α) : FailsOnly E (Pure.pure a : Except ε α) := fun _ h => nomatch h

theorem throw {e : ε} (h : E e) : FailsOnly E (MonadExcept.throw e : Except ε α) := by
  intro e' he
  cases he
  exact h

theorem bind {x : Except ε α} {f : α → Except ε β} (hx : FailsOnly E x)
    (hf : ∀ a, FailsOnly E (f a)) : FailsOnly E (x >>= f) := by
  intro e he
  cases hx' : x with
  | error e' => rw [hx'] at he; cases he; exact hx e hx'
  | ok a => rw [hx'] at he; exact hf a e he

/-- A sequence whose second part fails only as allowed after each success of the first. -/
theorem bind_of_ok {x : Except ε α} {f : α → Except ε β} (hx : FailsOnly E x)
    (hf : ∀ a, x = .ok a → FailsOnly E (f a)) : FailsOnly E (x >>= f) := by
  intro e he
  cases hx' : x with
  | error e' => rw [hx'] at he; cases he; exact hx e hx'
  | ok a => rw [hx'] at he; exact hf a hx' e he

theorem map {x : Except ε α} (hx : FailsOnly E x) (f : α → β) : FailsOnly E (f <$> x) :=
  bind hx fun a => pure (f a)

theorem mapError {ε' : Type} {E' : ε' → Prop} {x : Except ε α} (hx : FailsOnly E x)
    {g : ε → ε'} (hg : ∀ e, E e → E' (g e)) : FailsOnly E' (x.mapError g) := by
  intro e he
  cases hx' : x with
  | error e' => rw [hx'] at he; cases he; exact hg e' (hx e' hx')
  | ok a => rw [hx'] at he; cases he

theorem foldlM {f : β → α → Except ε β} (hf : ∀ b a, FailsOnly E (f b a)) (l : List α)
    (init : β) : FailsOnly E (l.foldlM f init) := by
  induction l generalizing init with
  | nil => exact pure init
  | cons a l ih => exact bind (hf init a) ih

theorem listMapM {f : α → Except ε β} (hf : ∀ a, FailsOnly E (f a)) (l : List α) :
    FailsOnly E (l.mapM f) := by
  induction l with
  | nil => exact pure []
  | cons a l ih =>
    rw [List.mapM_cons]
    exact bind (hf a) fun b => bind ih fun bs => pure (b :: bs)

theorem arrayMapM {f : α → Except ε β} (hf : ∀ a, FailsOnly E (f a)) (xs : Array α) :
    FailsOnly E (xs.mapM f) := by
  rw [Array.mapM_eq_mapM_toList]
  exact (listMapM hf xs.toList).map _

theorem treeMapFoldlM {κ ν δ : Type} {cmp : κ → κ → Ordering}
    {f : δ → κ → ν → Except ε δ} (hf : ∀ d k v, FailsOnly E (f d k v)) (t : Std.TreeMap κ ν cmp)
    (init : δ) :
    FailsOnly E (t.foldlM f init) := by
  rw [Std.TreeMap.foldlM_eq_foldlM_toList]
  exact foldlM (fun d (kv : κ × ν) => hf d kv.1 kv.2) _ init

theorem mono {E' : ε → Prop} {x : Except ε α} (h : FailsOnly E x) (hE : ∀ e, E e → E' e) :
    FailsOnly E' x :=
  fun e he => hE e (h e he)

/-- A computation none of whose failures is allowed succeeds. -/
theorem exists_ok {x : Except ε α} (h : FailsOnly E x) (hE : ∀ e, ¬ E e) : ∃ a, x = .ok a := by
  cases hx : x with
  | error e => exact absurd (h e hx) (hE e)
  | ok a => exact ⟨a, rfl⟩

end FailsOnly

end OverlapLayout
