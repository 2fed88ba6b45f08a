import Mathlib.Data.List.Forall2

namespace ClassTree

variable {ε ε' α β σ : Type}

theorem bind_eq_ok {x : Except ε α} {f : α → Except ε β} {b : β} :
    x >>= f = .ok b ↔ ∃ a, x = .ok a ∧ f a = .ok b := by
  cases x with
  | error fault => simp [bind, Except.bind]
  | ok a => simp [bind, Except.bind]

theorem bind_eq_error {x : Except ε α} {f : α → Except ε β} {e : ε} :
    x >>= f = .error e ↔ x = .error e ∨ ∃ a, x = .ok a ∧ f a = .error e := by
  cases x with
  | error fault => simp [bind, Except.bind]
  | ok a => simp [bind, Except.bind]

theorem map_eq_error {x : Except ε α} {f : α → β} {e : ε} : x.map f = .error e ↔ x = .error e := by
  cases x <;> simp [Except.map]

@[simp] theorem pure_eq_ok {a b : α} : (pure a : Except ε α) = .ok b ↔ a = b := by
  simp [pure, Except.pure]

@[simp] theorem throw_ne_ok {fault : ε} {a : α} : (throw fault : Except ε α) ≠ .ok a := by
  simp [throw, throwThe, MonadExceptOf.throw]

@[simp] theorem mapError_eq_ok {f : ε → ε'} {x : Except ε α} {a : α} :
    x.mapError f = .ok a ↔ x = .ok a := by
  cases x with
  | error fault => exact iff_of_false nofun nofun
  | ok b => simp [Except.mapError]

/-- What every step keeps, a run over a list of steps keeps. -/
theorem foldlM_ok {P : σ → Prop} {f : σ → α → Except ε σ} {l : List α} {s s' : σ}
    (step : ∀ x ∈ l, ∀ s s', P s → f s x = .ok s' → P s') (h : P s)
    (hf : l.foldlM f s = .ok s') : P s' := by
  induction l generalizing s with
  | nil =>
    rw [List.foldlM_nil, pure_eq_ok] at hf
    exact hf ▸ h
  | cons x l ih =>
    rw [List.foldlM_cons, bind_eq_ok] at hf
    obtain ⟨next, hx, hf⟩ := hf
    have hn := step x (by simp) s next h hx
    exact ih (fun y hy => step y (by simp [hy])) hn hf

/-- A run over a list fails at the first member where a step does. -/
theorem foldlM_eq_error {f : σ → α → Except ε σ} {l : List α} {s : σ} {e : ε} :
    l.foldlM f s = .error e ↔
      ∃ (i : Nat) (a : α) (s' : σ), l[i]? = some a ∧ (l.take i).foldlM f s = .ok s' ∧
        f s' a = .error e := by
  induction l generalizing s with
  | nil => exact iff_of_false nofun fun ⟨i, a, s', hi, _⟩ => by simp at hi
  | cons x l ih =>
    rw [List.foldlM_cons, bind_eq_error]
    constructor
    · rintro (hx | ⟨next, hx, hl⟩)
      · exact ⟨0, x, s, rfl, rfl, hx⟩
      · obtain ⟨i, a, s', hi, htake, ha⟩ := ih.mp hl
        refine ⟨i + 1, a, s', hi, ?_, ha⟩
        rw [List.take_succ_cons, List.foldlM_cons]
        exact bind_eq_ok.mpr ⟨next, hx, htake⟩
    · rintro ⟨i, a, s', hi, htake, ha⟩
      cases i with
      | zero =>
        obtain rfl := Option.some.inj hi
        obtain rfl := pure_eq_ok.mp htake
        exact .inl ha
      | succ i =>
        rw [List.take_succ_cons, List.foldlM_cons] at htake
        obtain ⟨next, hx, htake⟩ := bind_eq_ok.mp htake
        exact .inr ⟨next, hx, ih.mpr ⟨i, a, s', hi, htake, ha⟩⟩

/-- What each step of a run brings about, and no later step undoes, holds at its end. -/
theorem foldlM_brings {P : σ → Prop} {R : σ → σ → Prop} {Q : α → σ → Prop} {f : σ → α → Except ε σ}
    {l : List α} {s s' : σ} (refl : ∀ s, R s s) (trans : ∀ s s' s'', R s s' → R s' s'' → R s s'')
    (next : ∀ s s', R s s' → P s → P s') (keep : ∀ x s s', R s s' → Q x s → Q x s')
    (step : ∀ x ∈ l, ∀ s s', P s → f s x = .ok s' → R s s' ∧ Q x s') (h : P s)
    (hf : l.foldlM f s = .ok s') : R s s' ∧ ∀ x ∈ l, Q x s' := by
  induction l generalizing s with
  | nil =>
    rw [List.foldlM_nil, pure_eq_ok] at hf
    exact ⟨hf ▸ refl s, fun _ hx => absurd hx List.not_mem_nil⟩
  | cons x l ih =>
    rw [List.foldlM_cons, bind_eq_ok] at hf
    obtain ⟨middle, hx, hf⟩ := hf
    obtain ⟨hr, hq⟩ := step x (by simp) s middle h hx
    obtain ⟨hr', hq'⟩ := ih (fun y hy => step y (by simp [hy])) (next s middle hr h) hf
    refine ⟨trans s middle s' hr hr', ?_⟩
    intro y hy
    rcases List.mem_cons.mp hy with rfl | hy
    · exact keep y middle s' hr' hq
    · exact hq' y hy

/-- A run follows another one if every step follows a step of it. -/
theorem foldlM_follows {τ : Type} {R : σ → τ → Prop} {f : σ → α → Except ε σ}
    {g : τ → α → Except ε τ} {l : List α} {s s' : σ} {t : τ}
    (step : ∀ x ∈ l, ∀ s s' t, R s t → f s x = .ok s' → ∃ t', g t x = .ok t' ∧ R s' t')
    (h : R s t) (hf : l.foldlM f s = .ok s') : ∃ t', l.foldlM g t = .ok t' ∧ R s' t' := by
  induction l generalizing s t with
  | nil =>
    rw [List.foldlM_nil, pure_eq_ok] at hf
    exact ⟨t, rfl, hf ▸ h⟩
  | cons x l ih =>
    rw [List.foldlM_cons, bind_eq_ok] at hf
    obtain ⟨next, hx, hf⟩ := hf
    obtain ⟨next', hx', hn⟩ := step x List.mem_cons_self s next t h hx
    obtain ⟨t', ht', hr⟩ := ih (fun y hy => step y (List.mem_cons_of_mem _ hy)) hn hf
    exact ⟨t', by rw [List.foldlM_cons, hx']; exact ht', hr⟩

theorem mapM_eq_ok {f : α → Except ε β} {l : List α} {l' : List β} :
    l.mapM f = .ok l' ↔ List.Forall₂ (fun a b => f a = .ok b) l l' := by
  induction l generalizing l' with
  | nil => rw [List.mapM_nil, pure_eq_ok, List.forall₂_nil_left_iff, eq_comm]
  | cons x l ih =>
    simp only [List.mapM_cons, bind_eq_ok, pure_eq_ok, List.forall₂_cons_left_iff, ih]
    constructor
    · rintro ⟨y, hy, ys, hys, rfl⟩
      exact ⟨y, ys, hy, hys, rfl⟩
    · rintro ⟨y, ys, hy, hys, rfl⟩
      exact ⟨y, hy, ys, hys, rfl⟩

theorem exists_of_mapM_eq_error {f : α → Except ε β} {l : List α} {e : ε}
    (h : l.mapM f = .error e) : ∃ a ∈ l, f a = .error e := by
  induction l with
  | nil => cases h
  | cons x l ih =>
    rw [List.mapM_cons] at h
    rcases bind_eq_error.mp h with hx | ⟨b, hx, h⟩
    · exact ⟨x, List.mem_cons_self, hx⟩
    · rcases bind_eq_error.mp h with hl | ⟨bs, hl, h⟩
      · obtain ⟨a, ha, he⟩ := ih hl
        exact ⟨a, List.mem_cons_of_mem _ ha, he⟩
      · cases h

theorem forM_eq_ok {f : α → Except ε Unit} {l : List α} :
    l.forM f = .ok () ↔ ∀ a ∈ l, f a = .ok () := by
  induction l with
  | nil => simp
  | cons x l ih =>
    rw [List.forall_mem_cons, ← ih]
    change f x >>= (fun _ => l.forM f) = _ ↔ _
    rw [bind_eq_ok]
    exact ⟨fun ⟨_, hx, hl⟩ => ⟨hx, hl⟩, fun ⟨hx, hl⟩ => ⟨(), hx, hl⟩⟩

/-- What is made of the members of a list follows what else is made of them. -/
theorem mapM_follows {γ : Type} {R : β → γ → Prop} {f : α → Except ε β} {g : α → Except ε γ}
    {l : List α} {l' : List β}
    (step : ∀ a ∈ l, ∀ b, f a = .ok b → ∃ c, g a = .ok c ∧ R b c) (h : l.mapM f = .ok l') :
    ∃ l'', l.mapM g = .ok l'' ∧ List.Forall₂ R l' l'' := by
  induction l generalizing l' with
  | nil =>
    obtain rfl := pure_eq_ok.mp h
    exact ⟨[], rfl, .nil⟩
  | cons a l ih =>
    obtain ⟨b, rest, hb, hrest, rfl⟩ := List.forall₂_cons_left_iff.mp (mapM_eq_ok.mp h)
    obtain ⟨c, hc, hr⟩ := step a List.mem_cons_self b hb
    obtain ⟨rest', hrest', hall⟩ :=
      ih (fun a ha => step a (List.mem_cons_of_mem _ ha)) (mapM_eq_ok.mpr hrest)
    exact ⟨c :: rest', mapM_eq_ok.mpr (.cons hc (mapM_eq_ok.mp hrest')), .cons hr hall⟩

/-- What stands in a list has something that stands at the same place in the other. -/
theorem exists_of_mem_left {γ : Type} {R : α → γ → Prop} {l : List α} {l' : List γ}
    (h : List.Forall₂ R l l') {a : α} (ha : a ∈ l) : ∃ c ∈ l', R a c := by
  induction h with
  | nil => cases ha
  | cons hr _ ih =>
    rcases List.mem_cons.mp ha with rfl | ha
    · exact ⟨_, List.mem_cons_self, hr⟩
    · obtain ⟨c, hm, hc⟩ := ih ha
      exact ⟨c, List.mem_cons_of_mem _ hm, hc⟩

theorem exists_of_mem_mapM {f : α → Except ε β} {l : List α} {l' : List β}
    (h : l.mapM f = .ok l') {b : β} (hb : b ∈ l') : ∃ a ∈ l, f a = .ok b := by
  obtain ⟨a, ha, hab⟩ := exists_of_mem_left (mapM_eq_ok.mp h).flip hb
  exact ⟨a, ha, hab⟩

theorem exists_mem_of_mapM {f : α → Except ε β} {l : List α} {l' : List β}
    (h : l.mapM f = .ok l') {a : α} (ha : a ∈ l) : ∃ b ∈ l', f a = .ok b := by
  exact exists_of_mem_left (mapM_eq_ok.mp h) ha

theorem run_bind_eq_ok {x : StateT σ (Except ε) α} {f : α → StateT σ (Except ε) β} {s s'' : σ}
    {b : β} : (x >>= f).run s = .ok (b, s'') ↔
      ∃ a s', x.run s = .ok (a, s') ∧ (f a).run s' = .ok (b, s'') := by
  rw [StateT.run_bind, bind_eq_ok]
  constructor
  · rintro ⟨⟨a, s'⟩, hx, hf⟩
    exact ⟨a, s', hx, hf⟩
  · rintro ⟨a, s', hx, hf⟩
    exact ⟨(a, s'), hx, hf⟩

theorem run_lift_eq_ok {x : Except ε α} {s s' : σ} {a : α} :
    (liftM x : StateT σ (Except ε) α).run s = .ok (a, s') ↔ x = .ok a ∧ s' = s := by
  cases x with
  | error fault => exact iff_of_false nofun nofun
  | ok b =>
    constructor
    · rintro ⟨⟩
      exact ⟨rfl, rfl⟩
    · rintro ⟨⟨⟩, rfl⟩
      rfl

section

variable {P : ε → Prop}

def FailsOnly (P : ε → Prop) (x : Except ε α) : Prop :=
  ∀ fault, x = .error fault → P fault

theorem failsOnly_ok (a : α) : FailsOnly P (.ok a) :=
  nofun

theorem failsOnly_error {fault : ε} (h : P fault) : FailsOnly P (.error fault : Except ε α) := by
  rintro _ ⟨⟩
  exact h

theorem FailsOnly.bind {x : Except ε α} {f : α → Except ε β} (h : FailsOnly P x)
    (hf : ∀ a, FailsOnly P (f a)) : FailsOnly P (x >>= f) := by
  intro fault he
  rcases bind_eq_error.mp he with hx | ⟨a, -, ha⟩
  · exact h fault hx
  · exact hf a fault ha

theorem failsOnly_foldlM {f : σ → α → Except ε σ} (hf : ∀ s a, FailsOnly P (f s a)) (l : List α)
    (s : σ) : FailsOnly P (l.foldlM f s) := by
  intro fault he
  obtain ⟨_, a, s', -, -, ha⟩ := foldlM_eq_error.mp he
  exact hf s' a fault ha

theorem failsOnly_mapM {f : α → Except ε β} (hf : ∀ a, FailsOnly P (f a)) (l : List α) :
    FailsOnly P (l.mapM f) := by
  intro fault he
  obtain ⟨a, -, ha⟩ := exists_of_mapM_eq_error he
  exact hf a fault ha

end

section

variable {ε'' γ δ : Type} {R : α → γ → Prop} {S : β → δ → Prop}

/-- Both computations succeed, with related results, or neither does. -/
structure Alike (R : α → γ → Prop) (x : Except ε α) (y : Except ε' γ) : Prop where
  forth : ∀ {a}, x = .ok a → ∃ c, y = .ok c ∧ R a c
  back : ∀ {c}, y = .ok c → ∃ a, x = .ok a ∧ R a c

theorem Alike.refl (x : Except ε α) : Alike Eq x x :=
  ⟨fun h => ⟨_, h, rfl⟩, fun h => ⟨_, h, rfl⟩⟩

theorem alike_ok {a : α} {c : γ} (h : R a c) :
    Alike R (.ok a : Except ε α) (.ok c : Except ε' γ) :=
  ⟨by rintro _ ⟨⟩; exact ⟨c, rfl, h⟩, by rintro _ ⟨⟩; exact ⟨a, rfl, h⟩⟩

theorem alike_error (fault : ε) (fault' : ε') :
    Alike R (.error fault : Except ε α) (.error fault' : Except ε' γ) :=
  ⟨nofun, nofun⟩

theorem Alike.bind {x : Except ε α} {y : Except ε' γ} {f : α → Except ε β} {g : γ → Except ε' δ}
    (h : Alike R x y) (hf : ∀ a c, R a c → Alike S (f a) (g c)) : Alike S (x >>= f) (y >>= g) := by
  constructor
  · intro b hb
    obtain ⟨a, ha, hb⟩ := bind_eq_ok.mp hb
    obtain ⟨c, hc, hr⟩ := h.forth ha
    obtain ⟨d, hd, hs⟩ := (hf a c hr).forth hb
    exact ⟨d, bind_eq_ok.mpr ⟨c, hc, hd⟩, hs⟩
  · intro d hd
    obtain ⟨c, hc, hd⟩ := bind_eq_ok.mp hd
    obtain ⟨a, ha, hr⟩ := h.back hc
    obtain ⟨b, hb, hs⟩ := (hf a c hr).back hd
    exact ⟨b, bind_eq_ok.mpr ⟨a, ha, hb⟩, hs⟩

theorem Alike.bind_eq {x : Except ε α} {y : Except ε' α} {f : α → Except ε β}
    {g : α → Except ε' δ} (h : Alike Eq x y) (hf : ∀ a, Alike S (f a) (g a)) :
    Alike S (x >>= f) (y >>= g) :=
  h.bind fun a _ he => he ▸ hf a

theorem Alike.mapError {x : Except ε α} {y : Except ε' γ} (h : Alike R x y) (f : ε → ε'')
    (f' : ε' → ε'') : Alike R (x.mapError f) (y.mapError f') :=
  ⟨fun hx => by simpa using h.forth (mapError_eq_ok.mp hx),
    fun hy => by simpa using h.back (mapError_eq_ok.mp hy)⟩

end

end ClassTree
