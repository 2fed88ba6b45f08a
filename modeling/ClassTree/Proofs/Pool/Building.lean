import ClassTree.Proofs.Pool.Growth

namespace ClassTree.Pool

variable {α β : Type}

/-- A number of places that leaves room for no index beyond 16 bits. -/
theorem next_readFrom {count : Nat} {constants result : Constants} {cursor cursor' : Cursor}
    (h : (Constants.readFrom count constants).run cursor = .ok (result, cursor')) :
    result.next ≤ max constants.next (count + 1) := by
  fun_induction Constants.readFrom count constants generalizing cursor with
  | case1 constants hlt ih =>
    obtain ⟨constant, middle, -, h⟩ := run_bind_eq_ok.mp h
    have hle := ih constant h
    rw [Constants.add, Slots.next_push] at hle
    split at hle <;> omega
  | case2 constants hge =>
    cases h
    exact Nat.le_max_left _ _

theorem next_read {result : Constants} {cursor cursor' : Cursor}
    (h : Constants.read.run cursor = .ok (result, cursor')) : result.next ≤ 0x10000 := by
  obtain ⟨count, middle, -, h⟩ := run_bind_eq_ok.mp h
  have hle := next_readFrom h
  have hempty : Constants.empty.next = 1 := rfl
  have hlt := count.toNat_lt
  omega

/-- The first index of each of a list of things is one at which it is. -/
theorem foldl_insertIfNew {κ : Type} [BEq κ] [Hashable κ] [LawfulBEq κ]
    {l : List (κ × Nat)} {map : Std.HashMap κ UInt16} {P : κ → UInt16 → Prop}
    (hl : ∀ entry ∈ l, P entry.1 (UInt16.ofNat entry.2))
    (hm : ∀ {key index}, map[key]? = some index → P key index) {key : κ} {index : UInt16}
    (h : (l.foldl (fun map entry => map.insertIfNew entry.1 (UInt16.ofNat entry.2)) map)[key]? =
      some index) : P key index := by
  induction l generalizing map with
  | nil => exact hm h
  | cons entry l ih =>
    refine ih (fun e he => hl e (List.mem_cons_of_mem _ he)) ?_ h
    intro key index hk
    rw [Std.HashMap.getElem?_insertIfNew] at hk
    split at hk
    · rename_i hc
      obtain rfl := eq_of_beq hc.1
      exact Option.some.inj hk ▸ hl entry List.mem_cons_self
    · exact hm hk

namespace Builder

/-- Pools that start off empty, or with the constants of a class file, and have been added to. -/
inductive Reachable : Builder → Prop
  | empty : Reachable .empty
  | seeded {table : Table} {cursor cursor' : Cursor}
      (read : Constants.read.run cursor = .ok (table.constants, cursor')) :
      Reachable (.ofTable table)
  | add {b : Builder} {constant : Constant} (h : b.Reachable)
      (new : b.indices[constant]? = none) (room : b.hasRoom constant = true) :
      Reachable (b.add constant).2
  | addBootstrap {b : Builder} {entry : BootstrapMethod} (h : b.Reachable)
      (new : b.bootstrapIndices[entry]? = none) : Reachable (b.addBootstrap entry).2

theorem Reachable.sound {b : Builder} (h : b.Reachable) : b.Sound := by
  induction h with
  | empty => exact ⟨by simp [Builder.empty], by simp [Builder.empty]⟩
  | @seeded table cursor cursor' read =>
    refine ⟨?_, ?_⟩
    · intro constant index hi
      have hfold : (Builder.ofTable table).indices =
          (table.constants.placed.map Prod.swap).foldl
            (fun map entry => map.insertIfNew entry.1 (UInt16.ofNat entry.2)) ∅ := by
        rw [List.foldl_map]
        rfl
      rw [hfold] at hi
      refine foldl_insertIfNew
        (P := fun constant index => table.constants.get? index.toNat = some constant) ?_
          (by simp) hi
      intro entry he
      obtain ⟨⟨place, constant⟩, hm, rfl⟩ := List.mem_map.mp he
      obtain ⟨hget, hlt⟩ := Slots.mem_placed hm
      have hle := next_read read
      have hfits : place < 0x10000 := Nat.lt_of_lt_of_le hlt hle
      change table.constants.get? (UInt16.ofNat place).toNat = some constant
      rw [UInt16.toNat_ofNat_of_lt' hfits]
      exact hget
    · intro entry index hi
      refine foldl_insertIfNew
        (P := fun entry index => ∃ place, table.bootstrap[place]? = some entry ∧
          index = UInt16.ofNat place) ?_ (by simp) hi
      intro entry he
      refine ⟨entry.2, ?_, rfl⟩
      obtain ⟨-, hlt, hget⟩ := List.mem_zipIdx he
      rw [hget]
      simp at hlt ⊢
  | add _ new room ih => exact ih.add new room
  | addBootstrap _ new ih => exact ih.addBootstrap new

end Builder

namespace Build

/-- The outcome of a computation, and the pool that it leaves. -/
def exec (x : Build α) (b : Builder) : Except Error α × Builder :=
  x b

/-- From a pool, the computation succeeds with a value, and leaves another pool. -/
def Yields (x : Build α) (b : Builder) (a : α) (b' : Builder) : Prop :=
  x.exec b = (.ok a, b')

variable {x : Build α} {f : α → Build β} {b b' b'' : Builder} {a : α} {c : β}

@[simp] theorem exec_pure (a : α) (b : Builder) : (pure a : Build α).exec b = (.ok a, b) := rfl

@[simp] theorem exec_throw (fault : Error) (b : Builder) :
    (throw fault : Build α).exec b = (.error fault, b) := rfl

theorem exec_bind (x : Build α) (f : α → Build β) (b : Builder) :
    (x >>= f).exec b = match x.exec b with
      | (.ok a, b') => (f a).exec b'
      | (.error fault, b') => (.error fault, b') := by
  unfold exec
  change ExceptT.bindCont f (x b).1 (x b).2 = _
  rcases x b with ⟨fault | a, b'⟩ <;> rfl

theorem yields_pure {a' : α} : Yields (pure a) b a' b' ↔ a = a' ∧ b = b' := by
  simp [Yields]

theorem not_yields_throw {fault : Error} : ¬ Yields (throw fault) b a b' := by
  simp [Yields]

theorem yields_bind : Yields (x >>= f) b c b'' ↔
    ∃ a b', Yields x b a b' ∧ Yields (f a) b' c b'' := by
  unfold Yields
  rw [exec_bind]
  rcases x.exec b with ⟨fault | a, b'⟩ <;> simp

theorem Yields.value_eq {a' : α} (h : Yields x b a b') (h' : Yields x b a' b'') : a = a' := by
  have he := Prod.mk.inj (Eq.trans (Eq.symm h) h')
  exact Except.ok.inj he.1

theorem eq_pure_of_yields (h : ∀ b, Yields x b a b) : x = pure a :=
  funext h

theorem yields_ofExcept {x : Except Error α} :
    Yields (MonadExcept.ofExcept x) b a b' ↔ x = .ok a ∧ b = b' := by
  cases x with
  | error fault => simp [Yields, MonadExcept.ofExcept]
  | ok value => simp [Yields, MonadExcept.ofExcept]

/-- Pools only grow in a computation, one that can be stays one that can be, and the computation
can be repeated in any pool that has grown from what it left, with the same outcome. -/
structure Lawful (x : Build α) : Prop where
  within : ∀ b : Builder, b.Within (x.exec b).2
  reachable : ∀ {b : Builder}, b.Reachable → (x.exec b).2.Reachable
  again : ∀ {b a b' b''}, Yields x b a b' → b'.Within b'' → Yields x b'' a b''

theorem Lawful.grows (h : Lawful x) (hy : Yields x b a b') : b.Within b' := by
  have := h.within b
  rwa [hy] at this

theorem Lawful.reaches (h : Lawful x) (hr : b.Reachable) (hy : Yields x b a b') :
    b'.Reachable := by
  have := h.reachable hr
  rwa [hy] at this

theorem lawful_pure (a : α) : Lawful (pure a) where
  within := fun b => .refl b
  reachable := id
  again := fun hy _ => yields_pure.mpr ⟨(yields_pure.mp hy).1, rfl⟩

theorem lawful_throw (fault : Error) : Lawful (throw fault : Build α) where
  within := fun b => .refl b
  reachable := id
  again := fun hy _ => absurd hy not_yields_throw

theorem Lawful.bind_of_yields (hx : Lawful x) (hf : ∀ {b a b'}, Yields x b a b' → Lawful (f a)) :
    Lawful (x >>= f) where
  within := by
    intro b
    have h := hx.within b
    rw [exec_bind]
    rcases hb : x.exec b with ⟨fault | a, b'⟩
    · rwa [hb] at h
    · rw [hb] at h
      exact h.trans ((hf hb).within b')
  reachable := by
    intro b hr
    have h := hx.reachable hr
    rw [exec_bind]
    rcases hb : x.exec b with ⟨fault | a, b'⟩
    · rwa [hb] at h
    · rw [hb] at h
      exact (hf hb).reachable h
  again := by
    intro b c b' b'' hy hw
    obtain ⟨a, middle, hx', hf'⟩ := yields_bind.mp hy
    have hm := ((hf hx').grows hf').trans hw
    exact yields_bind.mpr ⟨a, b'', hx.again hx' hm, (hf hx').again hf' hw⟩

theorem Lawful.bind (hx : Lawful x) (hf : ∀ a, Lawful (f a)) : Lawful (x >>= f) :=
  hx.bind_of_yields fun _ => hf _

theorem lawful_ofExcept (x : Except Error α) : Lawful (MonadExcept.ofExcept x : Build α) := by
  cases x with
  | error fault => exact lawful_throw fault
  | ok a => exact lawful_pure a

theorem lawful_mapM {γ : Type} {g : γ → Build α} (hg : ∀ c, Lawful (g c)) (l : List γ) :
    Lawful (l.mapM g) := by
  induction l with
  | nil => exact lawful_pure []
  | cons c l ih =>
    rw [List.mapM_cons]
    exact (hg c).bind fun a => ih.bind fun as => lawful_pure (a :: as)

/-- What a list of computations yields, each of them yields in the pool that is left. -/
theorem forall₂_of_mapM {γ : Type} {g : γ → Build α} (hg : ∀ c, Lawful (g c)) {l : List γ}
    {as : List α} (hy : Yields (l.mapM g) b as b') :
    List.Forall₂ (fun c a => Yields (g c) b' a b') l as := by
  induction l generalizing b as with
  | nil =>
    obtain ⟨rfl, -⟩ := yields_pure.mp hy
    exact .nil
  | cons c l ih =>
    rw [List.mapM_cons] at hy
    obtain ⟨a, middle₁, ha, hy⟩ := yields_bind.mp hy
    obtain ⟨as', middle₂, has, hp⟩ := yields_bind.mp hy
    obtain ⟨rfl, rfl⟩ := yields_pure.mp hp
    exact .cons ((hg c).again ha ((lawful_mapM hg l).grows has)) (ih has)

theorem lawful_foldlM {γ : Type} {g : α → γ → Build α} (hg : ∀ a c, Lawful (g a c)) (l : List γ)
    (a : α) : Lawful (l.foldlM g a) := by
  induction l generalizing a with
  | nil => exact lawful_pure a
  | cons c l ih =>
    rw [List.foldlM_cons]
    exact (hg a c).bind fun a' => ih a'

/-- Asking for a constant finds it, adds it, or fails. -/
theorem exec_constant (constant : Constant) (b : Builder) :
    (∃ index, b.indices[constant]? = some index ∧
      (Build.constant constant).exec b = (.ok index, b)) ∨
    (b.indices[constant]? = none ∧ b.hasRoom constant = true ∧
      (Build.constant constant).exec b = (.ok (b.add constant).1, (b.add constant).2)) ∨
    (b.hasRoom constant = false ∧
      (Build.constant constant).exec b = (.error (.inconsistent .constantPoolOverflow), b)) := by
  unfold exec Build.constant
  cases hi : b.indices[constant]? with
  | some index => exact .inl ⟨index, rfl, rfl⟩
  | none =>
    cases hr : b.hasRoom constant with
    | true => exact .inr (.inl ⟨rfl, rfl, rfl⟩)
    | false => exact .inr (.inr ⟨rfl, rfl⟩)

/-- An index that was handed out is the one that will be found. -/
theorem indices_of_constant {constant : Constant} {index : Index}
    (hy : Yields (Build.constant constant) b index b') : b'.indices[constant]? = some index := by
  unfold Yields at hy
  rcases exec_constant constant b with ⟨i, hi, he⟩ | ⟨-, -, he⟩ | ⟨-, he⟩
  · obtain ⟨rfl, rfl⟩ : i = index ∧ b = b' := by simpa [he] using hy
    exact hi
  · obtain ⟨rfl, rfl⟩ : (b.add constant).1 = index ∧ (b.add constant).2 = b' := by
      simpa [he] using hy
    simp [Builder.add]
  · simp [he] at hy

theorem lawful_constant (constant : Constant) : Lawful (Build.constant constant) where
  within := by
    intro b
    rcases exec_constant constant b with ⟨i, -, he⟩ | ⟨hn, -, he⟩ | ⟨-, he⟩
    · rw [he]
      exact .refl b
    · rw [he]
      exact Builder.within_add hn
    · rw [he]
      exact .refl b
  reachable := by
    intro b hr
    rcases exec_constant constant b with ⟨i, -, he⟩ | ⟨hn, hroom, he⟩ | ⟨-, he⟩
    · rwa [he]
    · rw [he]
      exact hr.add hn hroom
    · rwa [he]
  again := by
    intro b index b' b'' hy hw
    have hi := hw.indices (indices_of_constant hy)
    rcases exec_constant constant b'' with ⟨i, hi', he⟩ | ⟨hn, -, -⟩ | ⟨-, he⟩
    · obtain rfl := Option.some.inj (hi'.symm.trans hi)
      exact he
    · rw [hn] at hi
      cases hi
    · unfold exec Build.constant at he
      rw [hi] at he
      cases he

/-- The entry of a bootstrap table is looked for among those that are there. -/
def entry (method : BootstrapMethod) : Build UInt16 := fun builder =>
  match builder.bootstrapIndices[method]? with
  | some index => (.ok index, builder)
  | none =>
    let (index, builder) := builder.addBootstrap method
    (.ok index, builder)

theorem bootstrapMethod_eq (method : Handle) (arguments : List Literal) :
    bootstrapMethod method arguments = (do
      let handle ← handle method
      let arguments ← arguments.mapM literal
      entry ⟨handle, arguments⟩) := rfl

theorem exec_entry (method : BootstrapMethod) (b : Builder) :
    (∃ index, b.bootstrapIndices[method]? = some index ∧
      (entry method).exec b = (.ok index, b)) ∨
    (b.bootstrapIndices[method]? = none ∧
      (entry method).exec b = (.ok (b.addBootstrap method).1, (b.addBootstrap method).2)) := by
  unfold exec entry
  cases hi : b.bootstrapIndices[method]? with
  | some index => exact .inl ⟨index, rfl, rfl⟩
  | none => exact .inr ⟨rfl, rfl⟩

theorem indices_of_entry {method : BootstrapMethod} {index : UInt16}
    (hy : Yields (entry method) b index b') : b'.bootstrapIndices[method]? = some index := by
  unfold Yields at hy
  rcases exec_entry method b with ⟨i, hi, he⟩ | ⟨-, he⟩
  · obtain ⟨rfl, rfl⟩ : i = index ∧ b = b' := by simpa [he] using hy
    exact hi
  · obtain ⟨rfl, rfl⟩ : (b.addBootstrap method).1 = index ∧ (b.addBootstrap method).2 = b' := by
      simpa [he] using hy
    simp [Builder.addBootstrap]

theorem lawful_entry (method : BootstrapMethod) : Lawful (entry method) where
  within := by
    intro b
    rcases exec_entry method b with ⟨i, -, he⟩ | ⟨hn, he⟩
    · rw [he]
      exact .refl b
    · rw [he]
      exact Builder.within_addBootstrap hn
  reachable := by
    intro b hr
    rcases exec_entry method b with ⟨i, -, he⟩ | ⟨hn, he⟩
    · rwa [he]
    · rw [he]
      exact hr.addBootstrap hn
  again := by
    intro b index b' b'' hy hw
    have hi := hw.bootstrapIndices (indices_of_entry hy)
    rcases exec_entry method b'' with ⟨i, hi', he⟩ | ⟨hn, -⟩
    · obtain rfl := Option.some.inj (hi'.symm.trans hi)
      exact he
    · rw [hn] at hi
      cases hi

theorem lawful_text (value : String) : Lawful (text value) :=
  lawful_constant _

theorem lawful_classRef (name : String) : Lawful (classRef name) :=
  (lawful_text name).bind fun _ => lawful_constant _

theorem lawful_nameAndType (name descriptor : String) : Lawful (nameAndType name descriptor) :=
  (lawful_text name).bind fun _ => (lawful_text descriptor).bind fun _ => lawful_constant _

theorem lawful_field (member : Member) : Lawful (field member) :=
  (lawful_classRef _).bind fun _ => (lawful_nameAndType _ _).bind fun _ => lawful_constant _

theorem lawful_method (member : Member) (onInterface : Bool) : Lawful (method member onInterface) :=
  (lawful_classRef _).bind fun _ => (lawful_nameAndType _ _).bind fun _ => lawful_constant _

theorem lawful_handle (value : Handle) : Lawful (handle value) := by
  unfold handle
  split
  · exact (lawful_field _).bind fun _ => lawful_constant _
  · exact (lawful_method _ _).bind fun _ => lawful_constant _

theorem lawful_literal (value : Literal) : Lawful (literal value) := by
  cases value with
  | int | float | long | double => exact lawful_constant _
  | string value => exact (lawful_text value).bind fun _ => lawful_constant _
  | classRef name => exact lawful_classRef name
  | methodType descriptor => exact (lawful_text descriptor).bind fun _ => lawful_constant _
  | handle value => exact lawful_handle value

theorem lawful_bootstrapMethod (method : Handle) (arguments : List Literal) :
    Lawful (bootstrapMethod method arguments) := by
  rw [bootstrapMethod_eq]
  exact (lawful_handle method).bind fun _ =>
    (lawful_mapM lawful_literal arguments).bind fun _ => lawful_entry _

theorem lawful_invokeDynamic (name descriptor : String) (method : Handle)
    (arguments : List Literal) : Lawful (invokeDynamic name descriptor method arguments) :=
  (lawful_bootstrapMethod method arguments).bind fun _ =>
    (lawful_nameAndType _ _).bind fun _ => lawful_constant _

/-- With room for `places` more constants, and any number of others, the computation succeeds,
leaves the others, and adds at most so many entries to the bootstrap table. -/
def Takes (x : Build α) (places entries : Nat) : Prop :=
  ∀ (b : Builder) (others : Nat), b.constants.next + (others + places) ≤ 0xFFFF →
    ∃ a b', Yields x b a b' ∧ b'.constants.next + others ≤ 0xFFFF ∧
      b'.bootstrap.size ≤ b.bootstrap.size + entries

theorem takes_pure (a : α) : Takes (pure a) 0 0 :=
  fun b _ h => ⟨a, b, yields_pure.mpr ⟨rfl, rfl⟩, h, Nat.le_refl _⟩

theorem Takes.bind {places places' entries entries' : Nat} (hx : Takes x places entries)
    (hf : ∀ a, Takes (f a) places' entries') :
    Takes (x >>= f) (places + places') (entries + entries') := by
  intro b others h
  obtain ⟨a, b', hy, hb', hsize⟩ := hx b (others + places') (by omega)
  obtain ⟨c, b'', hy', hb'', hsize'⟩ := hf a b' others hb'
  exact ⟨c, b'', yields_bind.mpr ⟨a, b', hy, hy'⟩, hb'', by omega⟩

theorem takes_constant (constant : Constant) : Takes (Build.constant constant) 2 0 := by
  intro b others h
  have hwidth : constant.width ≤ 2 := by unfold Constant.width; split <;> omega
  rcases exec_constant constant b with ⟨i, -, he⟩ | ⟨-, -, he⟩ | ⟨hroom, -⟩
  · exact ⟨i, b, he, by omega, Nat.le_refl _⟩
  · refine ⟨_, _, he, ?_, Nat.le_refl _⟩
    have hn := Slots.next_push b.constants constant.isWide constant
    change (b.constants.push constant.isWide constant).next + others ≤ 0xFFFF
    split at hn <;> omega
  · have hfull : ¬ b.constants.next + constant.width ≤ 0xFFFF := of_decide_eq_false hroom
    omega

theorem takes_text (value : String) : Takes (text value) 2 0 :=
  takes_constant _

theorem takes_classRef (name : String) : Takes (classRef name) 4 0 :=
  (takes_text name).bind fun _ => takes_constant _

theorem takes_nameAndType (name descriptor : String) : Takes (nameAndType name descriptor) 6 0 :=
  (takes_text name).bind fun _ => (takes_text descriptor).bind fun _ => takes_constant _

theorem takes_method (member : Member) (onInterface : Bool) :
    Takes (method member onInterface) 12 0 :=
  (takes_classRef _).bind fun _ => (takes_nameAndType _ _).bind fun _ => takes_constant _

theorem takes_entry (method : BootstrapMethod) : Takes (entry method) 0 1 := by
  intro b others h
  rcases exec_entry method b with ⟨i, -, he⟩ | ⟨-, he⟩
  · exact ⟨i, b, he, h, Nat.le_add_right _ _⟩
  · refine ⟨_, _, he, h, ?_⟩
    simp [Builder.addBootstrap]

section

variable {γ δ : Type} {R : α → γ → Prop} {S : β → δ → Prop} {y : Build γ}

/-- From every pool, both computations succeed, with related values and leaving the same pool, or
neither does. -/
structure Alike (R : α → γ → Prop) (x : Build α) (y : Build γ) : Prop where
  forth : ∀ {b a b'}, Yields x b a b' → ∃ c, Yields y b c b' ∧ R a c
  back : ∀ {b c b'}, Yields y b c b' → ∃ a, Yields x b a b' ∧ R a c

theorem Alike.refl (x : Build α) : Alike Eq x x :=
  ⟨fun h => ⟨_, h, rfl⟩, fun h => ⟨_, h, rfl⟩⟩

theorem Alike.yields_iff {x y : Build α} (h : Alike Eq x y) :
    Yields x b a b' ↔ Yields y b a b' := by
  constructor
  · intro hy
    obtain ⟨_, hc, rfl⟩ := h.forth hy
    exact hc
  · intro hy
    obtain ⟨_, hc, rfl⟩ := h.back hy
    exact hc

theorem Alike.symm {x y : Build α} (h : Alike Eq x y) : Alike Eq y x :=
  ⟨fun hy => ⟨_, h.yields_iff.mpr hy, rfl⟩, fun hy => ⟨_, h.yields_iff.mp hy, rfl⟩⟩

theorem Alike.trans {x y z : Build α} (h : Alike Eq x y) (h' : Alike Eq y z) : Alike Eq x z :=
  ⟨fun hy => ⟨_, h'.yields_iff.mp (h.yields_iff.mp hy), rfl⟩,
    fun hy => ⟨_, h.yields_iff.mpr (h'.yields_iff.mpr hy), rfl⟩⟩

theorem alike_pure {a : α} {c : γ} (h : R a c) : Alike R (pure a) (pure c) := by
  constructor
  · intro b a' b' hy
    obtain ⟨rfl, rfl⟩ := yields_pure.mp hy
    exact ⟨c, yields_pure.mpr ⟨rfl, rfl⟩, h⟩
  · intro b c' b' hy
    obtain ⟨rfl, rfl⟩ := yields_pure.mp hy
    exact ⟨a, yields_pure.mpr ⟨rfl, rfl⟩, h⟩

theorem alike_throw (fault fault' : Error) : Alike R (throw fault) (throw fault') :=
  ⟨fun hy => absurd hy not_yields_throw, fun hy => absurd hy not_yields_throw⟩

theorem Alike.bind_of_yields {f : α → Build β} {g : γ → Build δ} (h : Alike R x y)
    (hf : ∀ {b a b'}, Yields x b a b' → ∀ c, R a c → Alike S (f a) (g c)) :
    Alike S (x >>= f) (y >>= g) := by
  constructor
  · intro b d b' hy
    obtain ⟨a, middle, ha, hd⟩ := yields_bind.mp hy
    obtain ⟨c, hc, hr⟩ := h.forth ha
    obtain ⟨d', hd', hs⟩ := (hf ha c hr).forth hd
    exact ⟨d', yields_bind.mpr ⟨c, middle, hc, hd'⟩, hs⟩
  · intro b d b' hy
    obtain ⟨c, middle, hc, hd⟩ := yields_bind.mp hy
    obtain ⟨a, ha, hr⟩ := h.back hc
    obtain ⟨d', hd', hs⟩ := (hf ha c hr).back hd
    exact ⟨d', yields_bind.mpr ⟨a, middle, ha, hd'⟩, hs⟩

theorem Alike.bind {f : α → Build β} {g : γ → Build δ} (h : Alike R x y)
    (hf : ∀ a c, R a c → Alike S (f a) (g c)) : Alike S (x >>= f) (y >>= g) :=
  h.bind_of_yields fun _ => hf _

theorem Alike.bind_eq {x y : Build α} {f : α → Build β} {g : α → Build δ} (h : Alike Eq x y)
    (hf : ∀ a, Alike S (f a) (g a)) : Alike S (x >>= f) (y >>= g) :=
  h.bind fun a _ he => he ▸ hf a

theorem alike_ofExcept {x : Except Error α} {y : Except Error γ} (h : ClassTree.Alike R x y) :
    Alike R (MonadExcept.ofExcept x : Build α) (MonadExcept.ofExcept y) := by
  constructor
  · intro b a b' hy
    obtain ⟨ha, rfl⟩ := yields_ofExcept.mp hy
    obtain ⟨c, hc, hr⟩ := h.forth ha
    exact ⟨c, yields_ofExcept.mpr ⟨hc, rfl⟩, hr⟩
  · intro b c b' hy
    obtain ⟨hc, rfl⟩ := yields_ofExcept.mp hy
    obtain ⟨a, ha, hr⟩ := h.back hc
    exact ⟨a, yields_ofExcept.mpr ⟨ha, rfl⟩, hr⟩

theorem alike_throw_bind (fault fault' : Error) (f : α → Build β) (g : γ → Build δ) :
    Alike S (throw fault >>= f) (throw fault' >>= g) :=
  (alike_throw (R := fun _ _ => False) fault fault').bind fun _ _ h => h.elim

/-- Related lists are gone through alike. -/
theorem alike_mapM {f : α → Build β} {g : γ → Build β} {l : List α} {l' : List γ}
    (h : List.Forall₂ (fun a c => Alike Eq (f a) (g c)) l l') :
    Alike Eq (l.mapM f) (l'.mapM g) := by
  induction h with
  | nil => exact alike_pure rfl
  | cons hfirst _ ih =>
    rw [List.mapM_cons, List.mapM_cons]
    refine hfirst.bind_eq fun first => ?_
    refine ih.bind_eq fun rest => ?_
    exact alike_pure rfl

end

end Build
end ClassTree.Pool
