import ClassTree.Flow.Execution
import ClassTree.Proofs.Outcome
import ClassTree.Proofs.StackMap.Pairing

namespace ClassTree.Flow

open ClassTree.Frame Transition

variable {α β : Type} {P : SlotType → Prop} {f f' : SlotFrame} {type : SlotType}
  {a b : List SlotType}

/-- A stack, from the top down, that has second halves above wide values and nowhere else, and
otherwise only types of which `P` holds. -/
inductive Stacked (P : SlotType → Prop) : List SlotType → Prop
  | nil : Stacked P []
  | narrow {type : SlotType} {rest : List SlotType} (usable : type ≠ .top)
      (width : type.width ≠ 2) (allowed : P type) (below : Stacked P rest) :
      Stacked P (type :: rest)
  | wide {type : SlotType} {rest : List SlotType} (width : type.width = 2)
      (below : Stacked P rest) : Stacked P (.top :: type :: rest)

structure WellFormed (P : SlotType → Prop) (f : SlotFrame) : Prop where
  locals : Paired f.locals
  localTypes : ∀ type ∈ f.locals, P type
  stack : Stacked P f.stack

def Lenient (P : SlotType → Prop) : Prop :=
  ∀ type : SlotType, type.creation? = none → P type

/-- Whatever is no object, and not about to become one, is allowed, and so is what is in an array
that is. -/
structure Tolerant (P : SlotType → Prop) : Prop where
  value : ∀ {type : SlotType}, type.creation? = none → (∀ reference, type ≠ .object reference) →
    type ≠ .uninitializedThis → P type
  element : ∀ {reference : String} {element : List Char}, P (.object reference) →
    ClassReference.element? reference.toList = some element → P (.object (String.ofList element))

theorem Lenient.tolerant (hl : Lenient P) : Tolerant P :=
  ⟨fun h _ _ => hl _ h, fun _ _ => hl _ rfl⟩

theorem Tolerant.top (ht : Tolerant P) : P .top :=
  ht.value rfl nofun nofun

theorem Tolerant.wide (ht : Tolerant P) (h : type.width = 2) : P type := by
  cases type with
  | double | long => exact ht.value rfl nofun nofun
  | _ => cases h

theorem Stacked.append (ha : Stacked P a) (hb : Stacked P b) : Stacked P (a ++ b) := by
  induction ha with
  | nil => exact hb
  | narrow usable width allowed _ ih => exact .narrow usable width allowed ih
  | wide width _ ih => exact .wide width ih

/-- A stack can be cut below anything but a second half. -/
theorem Stacked.split (h : Stacked P a) {n : Nat} (hn : a[n]? = some type) (ht : type ≠ .top) :
    Stacked P (a.take (n + 1)) ∧ Stacked P (a.drop (n + 1)) := by
  induction h generalizing n with
  | nil => cases hn
  | narrow usable width allowed below ih =>
    cases n with
    | zero => exact ⟨.narrow usable width allowed .nil, below⟩
    | succ n =>
      obtain ⟨ht', hd⟩ := ih hn
      exact ⟨.narrow usable width allowed ht', hd⟩
  | wide width below ih =>
    match n, hn with
    | 0, hn => exact absurd (Option.some.inj hn).symm ht
    | 1, _ => exact ⟨.wide width .nil, below⟩
    | n + 2, hn =>
      obtain ⟨ht', hd⟩ := ih hn
      exact ⟨.wide width ht', hd⟩

theorem Stacked.paired (h : Stacked P a) : Paired a.reverse := by
  induction h with
  | nil => trivial
  | narrow _ width _ _ ih =>
    rw [List.reverse_cons]
    exact ih.append (paired_singleton width)
  | wide width _ ih =>
    rw [List.reverse_cons, List.reverse_cons, List.append_assoc]
    exact ih.append ⟨fun _ => rfl, nofun, trivial⟩

theorem Stacked.allowed (ht : Tolerant P) (h : Stacked P a) : ∀ type ∈ a, P type := by
  induction h with
  | nil => nofun
  | narrow _ _ allowed _ ih =>
    intro type hm
    rcases List.mem_cons.mp hm with rfl | hm
    · exact allowed
    · exact ih type hm
  | wide width _ ih =>
    intro type hm
    rcases List.mem_cons.mp hm with rfl | hm
    · exact ht.top
    rcases List.mem_cons.mp hm with rfl | hm
    · exact ht.wide width
    · exact ih type hm

def Keeps (P : SlotType → Prop) (x : Transition α) (Q : α → Prop) : Prop :=
  ∀ f a f', WellFormed P f → x.run f = .ok (a, f') → WellFormed P f' ∧ Q a

abbrev KeepsAll (P : SlotType → Prop) (x : Transition Unit) : Prop :=
  Keeps P x fun _ => True

section Combinators

variable {x : Transition α} {next : α → Transition β} {Q : α → Prop} {R : β → Prop}

theorem keeps_pure {a : α} (h : Q a) : Keeps P (pure a) Q := by
  intro f b f' hf hr
  cases hr
  exact ⟨hf, h⟩

theorem keeps_fail (fault : FlowFault) : Keeps P (fail fault) Q := by
  intro f a f' _ hr
  cases hr

theorem Keeps.bind (h : Keeps P x Q) (h' : ∀ a, Q a → Keeps P (next a) R) :
    Keeps P (x >>= next) R := by
  intro f b f'' hf hr
  obtain ⟨a, f', hx, hn⟩ := run_bind_eq_ok.mp hr
  obtain ⟨hf', ha⟩ := h f a f' hf hx
  exact h' a ha f' b f'' hf' hn

theorem keeps_lift {y : Except FlowFault α} (h : ∀ a, y = .ok a → Q a) :
    Keeps P (liftM y : Transition α) Q := by
  intro f a f' hf hr
  cases hy : y with
  | error fault =>
    rw [hy] at hr
    cases hr
  | ok b =>
    rw [hy] at hr
    cases hr
    exact ⟨hf, h _ hy⟩

theorem keeps_ite {c : Prop} [Decidable c] {y : Transition α} (hx : c → Keeps P x Q)
    (hy : ¬ c → Keeps P y Q) : Keeps P (if c then x else y) Q := by
  split
  · exact hx ‹_›
  · exact hy ‹_›

theorem keeps_forM {l : List β} {each : β → Transition Unit}
    (h : ∀ y ∈ l, KeepsAll P (each y)) : KeepsAll P (l.forM each) := by
  induction l with
  | nil => exact keeps_pure trivial
  | cons y l ih =>
    exact (h y (by simp)).bind fun _ _ => ih fun z hz => h z (by simp [hz])

end Combinators

theorem keeps_push (ht : type ≠ .top) (h : P type) : KeepsAll P (push type) := by
  rintro ⟨locals, stack⟩ _ f' hf hr
  have he : (push type).run ⟨locals, stack⟩ = .ok ((), ⟨locals, if type.width = 2 then
      .top :: type :: stack else type :: stack⟩) := rfl
  rw [he] at hr
  cases hr
  refine ⟨⟨hf.locals, hf.localTypes, ?_⟩, trivial⟩
  dsimp only
  split
  · exact .wide ‹_› hf.stack
  · exact .narrow ht ‹_› h hf.stack

theorem pop_narrow (locals rest : List SlotType) (ht : type ≠ .top) :
    pop.run ⟨locals, type :: rest⟩ = .ok (type, ⟨locals, rest⟩) := by
  cases type <;> first | rfl | exact absurd rfl ht

theorem pop_wide (locals rest : List SlotType) (hw : type.width = 2) :
    pop.run ⟨locals, .top :: type :: rest⟩ = .ok (type, ⟨locals, rest⟩) := by
  cases type <;> first | rfl | cases hw

/-- Looking below the top slots changes nothing, and finds no second half there. -/
theorem checkTop_eq_ok {count : Nat} (h : (checkTop count).run f = .ok ((), f')) :
    f' = f ∧ ∃ type, f.stack[count - 1]? = some type ∧ type ≠ .top := by
  obtain ⟨_, f₀, hg, h⟩ := run_bind_eq_ok.mp h
  cases hg
  split at h
  · cases h
  · cases h
  · rename_i type hne hat
    cases h
    exact ⟨rfl, type, hat, hne⟩

/-- What is on the stack can be cut below the top slots. -/
theorem Stacked.split_of_checkTop {count : Nat} (hs : Stacked P f.stack) (hc : 0 < count)
    (h : (checkTop count).run f = .ok ((), f')) :
    f' = f ∧ Stacked P (f.stack.take count) ∧ Stacked P (f.stack.drop count) := by
  obtain ⟨rfl, type, hat, ht⟩ := checkTop_eq_ok h
  have := hs.split hat ht
  rw [Nat.sub_add_cancel hc] at this
  exact ⟨rfl, this⟩

theorem keeps_dup {count depth : Nat} (hc : 0 < count) : KeepsAll P (dup count depth) := by
  intro f _ f' hf hr
  obtain ⟨stack, f₀, hg, h₀⟩ := run_bind_eq_ok.mp hr
  cases hg
  dsimp only at h₀
  split at h₀
  · cases h₀
  obtain ⟨_, f₁, h₁, hn⟩ := run_bind_eq_ok.mp h₀
  obtain ⟨_, f₂, h₂, hset⟩ := run_bind_eq_ok.mp hn
  obtain ⟨rfl, htop, -⟩ := hf.stack.split_of_checkTop hc h₁
  obtain ⟨rfl, habove, hbelow⟩ := hf.stack.split_of_checkTop (by omega) h₂
  cases hset
  exact ⟨⟨hf.locals, hf.localTypes, (habove.append htop).append hbelow⟩, trivial⟩

theorem keeps_popSlots {count : Nat} (hc : 0 < count) : KeepsAll P (popSlots count) := by
  intro f _ f' hf hr
  obtain ⟨_, f₁, h₁, hset⟩ := run_bind_eq_ok.mp hr
  obtain ⟨rfl, -, hbelow⟩ := hf.stack.split_of_checkTop hc h₁
  cases hset
  exact ⟨⟨hf.locals, hf.localTypes, hbelow⟩, trivial⟩

theorem keeps_swap : KeepsAll P swap := by
  rintro ⟨locals, stack⟩ _ f' hf hr
  obtain ⟨_, f₀, hg, h₀⟩ := run_bind_eq_ok.mp hr
  cases hg
  have hs : Stacked P stack := hf.stack
  dsimp only at h₀
  split at h₀
  · obtain ⟨_, f₁, h₁, hn⟩ := run_bind_eq_ok.mp h₀
    obtain ⟨_, f₂, h₂, hset⟩ := run_bind_eq_ok.mp hn
    obtain ⟨rfl, _, he₁, ht₁⟩ := checkTop_eq_ok h₁
    obtain ⟨rfl, _, he₂, ht₂⟩ := checkTop_eq_ok h₂
    cases he₁
    cases he₂
    cases hset
    cases hs with
    | wide => exact absurd rfl ht₁
    | narrow _ width₁ allowed₁ hs =>
      cases hs with
      | wide => exact absurd rfl ht₂
      | narrow _ width₂ allowed₂ below =>
        exact ⟨⟨hf.locals, hf.localTypes,
          .narrow ht₂ width₂ allowed₂ (.narrow ht₁ width₁ allowed₁ below)⟩, trivial⟩
  · cases h₀

theorem keeps_load (op : Opcode) (slot : UInt16) : KeepsAll P (load op slot) := by
  intro f _ f' hf hr
  obtain ⟨_, f₀, hg, h₀⟩ := run_bind_eq_ok.mp hr
  cases hg
  split at h₀
  · cases h₀
  · rename_i type hat
    split at h₀
    · rename_i hloads
      have ht : type ≠ .top := by
        rintro rfl
        revert hloads
        unfold loads
        split <;> decide
      exact keeps_push ht (hf.localTypes type (List.mem_of_getElem? hat)) f _ f' hf h₀
    · cases h₀

def SlotFrame.padded (f : SlotFrame) (count : Nat) : List SlotType :=
  f.locals ++ List.replicate (count - f.locals.length) .top

theorem SlotFrame.le_length_padded (f : SlotFrame) (count : Nat) :
    count ≤ (f.padded count).length := by
  simp [padded]
  omega

/-- The locals after a value is stored are what they were, but for the slots that the value takes,
and for a wide value that it cuts in half. -/
theorem getElem?_store (f : SlotFrame) (slot : Nat) (type : SlotType) (i : Nat) :
    (f.store slot type).locals[i]? =
      if i = slot then some type
      else if i = slot + 1 ∧ type.width = 2 then some .top
      else if i + 1 = slot ∧ (f.padded (slot + type.width))[i]?.map VerificationType.width = some 2
        then some .top
      else (f.padded (slot + type.width))[i]? := by
  have hlen := f.le_length_padded (slot + type.width)
  have hpos : 0 < type.width := by cases type <;> exact Nat.succ_pos _
  have hunfold : (f.store slot type).locals =
      let cut := if 0 < slot ∧ (f.padded (slot + type.width))[slot - 1]?.map
          VerificationType.width = some 2 then (f.padded (slot + type.width)).set (slot - 1) .top
        else f.padded (slot + type.width)
      if type.width = 2 then (cut.set slot type).set (slot + 1) .top else cut.set slot type := rfl
  rw [hunfold]
  generalize f.padded (slot + type.width) = locals at hlen ⊢
  dsimp only
  split <;> split <;> grind

theorem mem_store {slot : Nat} {other : SlotType} (h : other ∈ (f.store slot type).locals) :
    other = type ∨ other = .top ∨ other ∈ f.locals := by
  obtain ⟨i, hi⟩ := List.mem_iff_getElem?.mp h
  rw [getElem?_store] at hi
  split at hi
  · exact .inl (Option.some.inj hi).symm
  split at hi
  · exact .inr (.inl (Option.some.inj hi).symm)
  split at hi
  · exact .inr (.inl (Option.some.inj hi).symm)
  · rcases List.mem_append.mp (List.mem_of_getElem? hi) with hm | hm
    · exact .inr (.inr hm)
    · exact .inr (.inl (List.eq_of_mem_replicate hm))

theorem paired_store (h : Paired f.locals) (slot : Nat) (type : SlotType) :
    Paired (f.store slot type).locals := by
  have hpad : Paired (f.padded (slot + type.width)) := h.append (paired_replicate_top _)
  rw [paired_iff] at hpad ⊢
  intro i other hi hw
  rw [getElem?_store] at hi ⊢
  by_cases his : i = slot
  · subst his
    obtain rfl : type = other := by simpa using hi
    simp [hw]
  have hi₁ : ¬ i + 1 = slot + 1 := by omega
  rw [if_neg his] at hi
  split at hi
  · cases hi
    cases hw
  split at hi
  · cases hi
    cases hw
  rename_i hcut
  have hnext := hpad i other hi hw
  have hslot : i + 1 ≠ slot := by
    intro he
    exact hcut ⟨he, by rw [hi, Option.map_some, hw]⟩
  rw [if_neg hslot, if_neg (by omega), hnext]
  simp

def Ordinary (type : SlotType) : Prop :=
  type ≠ .top ∧ type.creation? = none

/-- A value that is no object, and not about to become one. -/
def Plain (type : SlotType) : Prop :=
  Ordinary type ∧ (∀ reference, type ≠ .object reference) ∧ type ≠ .uninitializedThis

theorem Tolerant.plain (ht : Tolerant P) (h : Plain type) : P type :=
  ht.value h.1.2 h.2.1 h.2.2

theorem plain_numeric (place : Nat) : Plain (numeric place) := by
  unfold numeric
  split <;> exact ⟨⟨nofun, rfl⟩, nofun, nofun⟩

theorem ordinary_numeric (place : Nat) : Ordinary (numeric place) :=
  (plain_numeric place).1

theorem ordinary_ofFieldType (type : FieldType) : Ordinary (.ofFieldType type) := by
  rcases type with ⟨_ | _⟩ | _ <;> exact ⟨nofun, rfl⟩

theorem ordinary_loadedElement {op : Opcode} {array : SlotType}
    (h : loadedElement op array = .ok type) : Ordinary type := by
  unfold loadedElement at h
  split at h
  · cases h
    exact ⟨nofun, rfl⟩
  · cases h
    exact ⟨nofun, rfl⟩
  · cases h
    exact ⟨nofun, rfl⟩
  · split at h
    · cases h
      exact ⟨nofun, rfl⟩
    · split at h
      · cases h
        exact ⟨nofun, rfl⟩
      · cases h
    · cases h
  · cases h
    exact ⟨nofun, rfl⟩

theorem allowed_loadedElement (ht : Tolerant P) {op : Opcode} {array : SlotType} (ha : P array)
    (h : loadedElement op array = .ok type) : P type := by
  unfold loadedElement at h
  split at h
  · cases h
    exact ht.value rfl nofun nofun
  · cases h
    exact ht.value rfl nofun nofun
  · cases h
    exact ht.value rfl nofun nofun
  · split at h
    · cases h
      exact ht.value rfl nofun nofun
    · split at h
      · cases h
        exact ht.element ha ‹_›
      · cases h
    · cases h
  · cases h
    exact ht.value rfl nofun nofun

theorem ordinary_literalType (value : Literal) : Ordinary (literalType value) := by
  cases value <;> exact ⟨nofun, rfl⟩

/-- Whatever maps second halves, and values by their width, to such again keeps slot form. -/
theorem paired_map {g : SlotType → SlotType} (hg : ∀ type, (g type).width = type.width)
    (ht : g .top = .top) (h : Paired a) : Paired (a.map g) := by
  induction a with
  | nil => trivial
  | cons type a ih =>
    refine ⟨fun hw => ?_, ih h.2⟩
    rw [List.head?_map, h.1 (by rwa [hg] at hw), Option.map_some, ht]

theorem stacked_map {g : SlotType → SlotType} (hg : ∀ type, (g type).width = type.width)
    (ht : ∀ type, g type = .top ↔ type = .top) (hp : ∀ type, P type → P (g type))
    (h : Stacked P a) : Stacked P (a.map g) := by
  induction h with
  | nil => exact .nil
  | @narrow type rest usable width allowed _ ih =>
    exact .narrow (by rwa [ne_eq, ht]) (by rwa [hg]) (hp type allowed) ih
  | @wide type rest width _ ih =>
    rw [List.map_cons, List.map_cons, (ht .top).mpr rfl]
    exact .wide (by rwa [hg]) ih

/-- Types that differ only in what is referred to. -/
theorem width_of_isReference (h : type.isReference = true) : type.width = 1 := by
  cases type <;> first | rfl | cases h

theorem constructed_eq_ok {context : Context} {code : Array (Instruction Label)}
    {object : SlotType} (h : constructed context code type = .ok object) :
    ∃ name, object = .object name := by
  unfold constructed at h
  split at h
  · cases h
    exact ⟨_, rfl⟩
  · split at h
    · cases h
      exact ⟨_, rfl⟩
    · cases h
  · cases h

theorem WellFormed.construct (hf : WellFormed P f) {name : String} (hn : P (.object name))
    (hr : type.isReference = true) : WellFormed P (f.construct type (.object name)) := by
  let settle (other : SlotType) : SlotType := if other = type then .object name else other
  have hw : ∀ other, (settle other).width = other.width := by
    intro other
    dsimp only [settle]
    split
    · rename_i he
      rw [he, width_of_isReference hr]
      rfl
    · rfl
  have htop : ∀ other, settle other = .top ↔ other = .top := by
    intro other
    dsimp only [settle]
    split
    · rename_i he
      refine iff_of_false nofun ?_
      rintro rfl
      rw [← he] at hr
      cases hr
    · rfl
  have hp : ∀ other, P other → P (settle other) := by
    intro other ho
    dsimp only [settle]
    split
    · exact hn
    · exact ho
  refine ⟨paired_map hw ((htop _).mpr rfl) hf.locals, ?_, stacked_map hw htop hp hf.stack⟩
  intro other hm
  obtain ⟨old, ho, rfl⟩ := List.mem_map.mp hm
  exact hp old (hf.localTypes old ho)

/-- Types that an instruction can bring into a frame, other than those of values that are no
objects, and those of elements of arrays in it. -/
inductive Brings (context : Context) (code : Array (Instruction Label)) (index : Nat) :
    Instruction Label → SlotType → Prop
  | new {name : String} : Brings context code index (.type .new name) (.uninitialized index)
  | array {op : Opcode} {name : String} : Brings context code index (.type op name)
      (.object (String.ofList (ClassReference.arrayOf name.toList)))
  | cast {op : Opcode} {name : String} : Brings context code index (.type op name) (.object name)
  | field {op : Opcode} {member : Member} {type : FieldType}
      (parsed : parseField member.descriptor = .ok type) :
      Brings context code index (.field op member) (.ofFieldType type)
  | result {op : Opcode} {member : Member} {onInterface : Bool} {type : MethodType}
      {result : FieldType} (parsed : parseMethod member.descriptor = .ok type)
      (some : type.result = some result) :
      Brings context code index (.invoke op member onInterface) (.ofFieldType result)
  | constructed {op : Opcode} {member : Member} {onInterface : Bool} {receiver object : SlotType}
      (constructed : constructed context code receiver = .ok object) :
      Brings context code index (.invoke op member onInterface) object
  | dynamic {name descriptor : String} {handle : Handle} {arguments : List Literal}
      {type : MethodType} {result : FieldType} (parsed : parseMethod descriptor = .ok type)
      (some : type.result = some result) :
      Brings context code index (.invokeDynamic name descriptor handle arguments)
        (.ofFieldType result)
  | literal {value : Literal} : Brings context code index (.load value) (literalType value)
  | primitives {op : Opcode} {operand : Int32} {element : BaseType} :
      Brings context code index (.int op operand)
        (.object (RefType.arrayOf (.base element)).descriptor)
  | dimensions {descriptor : String} {count : UInt8} :
      Brings context code index (.multiArray descriptor count) (.object descriptor)

/-- Instructions bring no objects that are not constructed yet, but those that they create. -/
theorem Brings.creation {context : Context} {code : Array (Instruction Label)} {index : Nat}
    {insn : Instruction Label} (h : Brings context code index insn type) :
    type.creation? = none ∨ type = .uninitialized index ∧ ∃ name, insn = .type .new name := by
  cases h with
  | new => exact .inr ⟨rfl, _, rfl⟩
  | field => exact .inl (ordinary_ofFieldType _).2
  | result => exact .inl (ordinary_ofFieldType _).2
  | dynamic => exact .inl (ordinary_ofFieldType _).2
  | literal => exact .inl (ordinary_literalType _).2
  | constructed h =>
    obtain ⟨name, rfl⟩ := constructed_eq_ok h
    exact .inl rfl
  | array | cast | primitives | dimensions => exact .inl rfl

section Instructions

variable (ht : Tolerant P)
include ht

theorem keeps_pushPlain (h : Plain type) : KeepsAll P (push type) :=
  keeps_push h.1.1 (ht.plain h)

theorem keeps_pop : Keeps P pop P := by
  rintro ⟨locals, stack⟩ found f' hf hr
  have hs : Stacked P stack := hf.stack
  cases hs with
  | nil => cases hr
  | narrow usable width allowed below =>
    rw [pop_narrow _ _ usable] at hr
    cases hr
    exact ⟨⟨hf.locals, hf.localTypes, below⟩, allowed⟩
  | wide width below =>
    rw [pop_wide _ _ width] at hr
    cases hr
    exact ⟨⟨hf.locals, hf.localTypes, below⟩, ht.wide width⟩

theorem keeps_popExpecting (expected : SlotType) : KeepsAll P (popExpecting expected) :=
  (keeps_pop ht).bind fun _ _ => keeps_ite (fun _ => keeps_fail _) fun _ => keeps_pure trivial

theorem keeps_popReference :
    Keeps P popReference fun type => P type ∧ type.isReference = true :=
  (keeps_pop ht).bind fun _ hp => keeps_ite (fun hr => keeps_pure ⟨hp, hr⟩) fun _ => keeps_fail _

/-- What a reference is makes no difference to what is done with it. -/
theorem keeps_discard : KeepsAll P (do let _ ← popReference) :=
  (keeps_popReference ht).bind fun _ _ => keeps_pure trivial

theorem keeps_popField (type : FieldType) : KeepsAll P (popField type) := by
  cases type with
  | ref _ => exact keeps_discard ht
  | base _ => exact keeps_popExpecting ht _

theorem keeps_popArguments (type : MethodType) : KeepsAll P (popArguments type) :=
  keeps_forM fun _ _ => keeps_popField ht _

omit ht in
theorem keeps_pushResult {type : MethodType}
    (h : ∀ result, type.result = some result → P (.ofFieldType result)) :
    KeepsAll P (pushResult type) := by
  unfold pushResult
  split
  · exact keeps_push (ordinary_ofFieldType _).1 (h _ ‹_›)
  · exact keeps_pure trivial

theorem keeps_store (slot : UInt16) (h : P type) : KeepsAll P (store slot type) := by
  intro f _ f' hf hr
  cases hr
  refine ⟨⟨paired_store hf.locals _ _, ?_, hf.stack⟩, trivial⟩
  intro other hm
  rcases mem_store hm with rfl | rfl | hm
  · exact h
  · exact ht.top
  · exact hf.localTypes other hm

theorem keeps_popElement (op : Opcode) : KeepsAll P (popElement op) := by
  unfold popElement
  split
  · exact keeps_popExpecting ht _
  · exact keeps_popExpecting ht _
  · exact keeps_popExpecting ht _
  · exact keeps_discard ht
  · exact keeps_popExpecting ht _

theorem keeps_binary {result : SlotType} (h : Plain result) :
    KeepsAll P (binary type result) :=
  (keeps_popExpecting ht _).bind fun _ _ => (keeps_popExpecting ht _).bind fun _ _ =>
    keeps_pushPlain ht h

theorem keeps_unary {result : SlotType} (h : Plain result) : KeepsAll P (unary type result) :=
  (keeps_popExpecting ht _).bind fun _ _ => keeps_pushPlain ht h

theorem keeps_executePlain (op : Opcode) : KeepsAll P (executePlain op) := by
  unfold executePlain
  refine keeps_ite (fun _ => keeps_pure trivial) fun _ => ?_
  -- constants
  refine keeps_ite (fun _ => keeps_pushPlain ht ⟨⟨nofun, rfl⟩, nofun, nofun⟩) fun _ => ?_
  refine keeps_ite (fun _ => keeps_pushPlain ht ⟨⟨nofun, rfl⟩, nofun, nofun⟩) fun _ => ?_
  refine keeps_ite (fun _ => keeps_pushPlain ht ⟨⟨nofun, rfl⟩, nofun, nofun⟩) fun _ => ?_
  refine keeps_ite (fun _ => keeps_pushPlain ht ⟨⟨nofun, rfl⟩, nofun, nofun⟩) fun _ => ?_
  refine keeps_ite (fun _ => keeps_pushPlain ht ⟨⟨nofun, rfl⟩, nofun, nofun⟩) fun _ => ?_
  -- arrays
  refine keeps_ite (fun _ => (keeps_popExpecting ht _).bind fun _ _ =>
    (keeps_popReference ht).bind fun _ hr => (keeps_lift fun _ h =>
      And.intro (ordinary_loadedElement h) (allowed_loadedElement ht hr.1 h)).bind fun _ h =>
        keeps_push h.1.1 h.2) fun _ => ?_
  refine keeps_ite (fun _ => (keeps_popElement ht op).bind fun _ _ =>
    (keeps_popExpecting ht _).bind fun _ _ => keeps_discard ht) fun _ => ?_
  -- slots of the stack
  refine keeps_ite (fun _ => keeps_popSlots Nat.one_pos) fun _ => ?_
  refine keeps_ite (fun _ => keeps_popSlots Nat.two_pos) fun _ => ?_
  refine keeps_ite (fun _ => keeps_dup Nat.one_pos) fun _ => ?_
  refine keeps_ite (fun _ => keeps_dup Nat.one_pos) fun _ => ?_
  refine keeps_ite (fun _ => keeps_dup Nat.one_pos) fun _ => ?_
  refine keeps_ite (fun _ => keeps_dup Nat.two_pos) fun _ => ?_
  refine keeps_ite (fun _ => keeps_dup Nat.two_pos) fun _ => ?_
  refine keeps_ite (fun _ => keeps_dup Nat.two_pos) fun _ => ?_
  refine keeps_ite (fun _ => keeps_swap) fun _ => ?_
  -- arithmetic
  refine keeps_ite (fun _ => keeps_binary ht (plain_numeric _)) fun _ => ?_
  refine keeps_ite (fun _ => keeps_unary ht (plain_numeric _)) fun _ => ?_
  refine keeps_ite (fun _ => (keeps_popExpecting ht _).bind fun _ _ =>
    keeps_unary ht (plain_numeric _)) fun _ => ?_
  refine keeps_ite (fun _ => keeps_binary ht (plain_numeric _)) fun _ => ?_
  refine keeps_ite (fun _ => keeps_unary ht (plain_numeric _)) fun _ => ?_
  refine keeps_ite (fun _ => keeps_unary ht ⟨⟨nofun, rfl⟩, nofun, nofun⟩) fun _ => ?_
  refine keeps_ite (fun _ => keeps_binary ht ⟨⟨nofun, rfl⟩, nofun, nofun⟩) fun _ => ?_
  -- results
  refine keeps_ite (fun _ => keeps_popExpecting ht _) fun _ => ?_
  refine keeps_ite (fun _ => keeps_popExpecting ht _) fun _ => ?_
  refine keeps_ite (fun _ => keeps_popExpecting ht _) fun _ => ?_
  refine keeps_ite (fun _ => keeps_popExpecting ht _) fun _ => ?_
  refine keeps_ite (fun _ => keeps_discard ht) fun _ => ?_
  exact keeps_ite (fun _ => (keeps_popReference ht).bind fun _ _ =>
    keeps_pushPlain ht ⟨⟨nofun, rfl⟩, nofun, nofun⟩) fun _ => keeps_fail _

theorem keeps_executeVar (op : Opcode) (slot : UInt16) : KeepsAll P (executeVar op slot) := by
  unfold executeVar
  refine keeps_ite (fun _ => keeps_load op slot) fun _ => ?_
  refine keeps_ite (fun _ => (keeps_popExpecting ht _).bind fun _ _ =>
    keeps_store ht slot (ht.plain (plain_numeric _))) fun _ => ?_
  refine keeps_ite (fun _ => (keeps_popReference ht).bind fun _ hr =>
    keeps_store ht slot hr.1) fun _ => ?_
  exact keeps_ite (fun _ => keeps_fail _) fun _ => keeps_fail _

theorem keeps_executeType {context : Context} {code : Array (Instruction Label)} {index : Nat}
    {op : Opcode} {name : String}
    (hb : ∀ {type}, Brings context code index (.type op name) type → P type) :
    KeepsAll P (executeType index op name) := by
  unfold executeType
  refine keeps_ite (fun ho => ?_) fun _ => ?_
  · subst ho
    exact keeps_push nofun (hb .new)
  refine keeps_ite (fun _ => (keeps_popExpecting ht _).bind fun _ _ =>
    keeps_push nofun (hb .array)) fun _ => ?_
  refine keeps_ite (fun _ => (keeps_popReference ht).bind fun _ _ =>
    keeps_push nofun (hb .cast)) fun _ => ?_
  exact keeps_ite (fun _ => (keeps_popReference ht).bind fun _ _ =>
    keeps_pushPlain ht ⟨⟨nofun, rfl⟩, nofun, nofun⟩) fun _ => keeps_fail _

theorem keeps_executeField {context : Context} {code : Array (Instruction Label)} {index : Nat}
    {op : Opcode} {member : Member}
    (hb : ∀ {type}, Brings context code index (.field op member) type → P type) :
    KeepsAll P (executeField op member) := by
  unfold executeField
  refine (keeps_lift fun _ h => hb (.field h)).bind fun type hp => ?_
  have hpush : KeepsAll P (push (.ofFieldType type)) := keeps_push (ordinary_ofFieldType _).1 hp
  refine keeps_ite (fun _ => hpush) fun _ => ?_
  refine keeps_ite (fun _ => keeps_popField ht _) fun _ => ?_
  exact keeps_ite (fun _ => (keeps_popReference ht).bind fun _ _ => hpush) fun _ =>
      (keeps_popField ht _).bind fun _ _ => keeps_discard ht

theorem keeps_executeJump (op : Opcode) : KeepsAll P (executeJump op) := by
  unfold executeJump
  refine keeps_ite (fun _ => keeps_popExpecting ht _) fun _ => ?_
  refine keeps_ite (fun _ => (keeps_popExpecting ht _).bind fun _ _ =>
    keeps_popExpecting ht _) fun _ => ?_
  refine keeps_ite (fun _ => (keeps_popReference ht).bind fun _ _ => keeps_discard ht) fun _ => ?_
  refine keeps_ite (fun _ => keeps_discard ht) fun _ => ?_
  exact keeps_ite (fun _ => keeps_pure trivial) fun _ => keeps_fail _

theorem keeps_executeInvoke {context : Context} {code : Array (Instruction Label)} {index : Nat}
    {op : Opcode} {member : Member} {onInterface : Bool}
    (hb : ∀ {type}, Brings context code index (.invoke op member onInterface) type → P type) :
    KeepsAll P (executeInvoke context code op member) := by
  unfold executeInvoke
  refine (keeps_lift (Q := fun type => parseMethod member.descriptor = .ok type)
    fun _ h => h).bind fun type hparsed => ?_
  have hresult : KeepsAll P (pushResult type) :=
    keeps_pushResult fun _ h => hb (.result hparsed h)
  refine (keeps_popArguments ht type).bind fun _ _ => ?_
  refine keeps_ite (fun _ => ?_) fun _ => hresult
  refine (keeps_popReference ht).bind fun receiver hr => ?_
  refine keeps_ite (fun _ => ?_) fun _ => hresult
  refine (keeps_lift fun object h => And.intro (constructed_eq_ok h)
    (hb (.constructed h))).bind ?_
  rintro _ ⟨⟨name, rfl⟩, hobject⟩
  refine (?_ : KeepsAll P _).bind fun _ _ => hresult
  intro f _ f' hf hm
  cases hm
  exact ⟨hf.construct hobject hr.2, trivial⟩

/-- Every instruction keeps frames well-formed, as long as what it brings is allowed. -/
theorem keeps_execute {context : Context} {code : Array (Instruction Label)} {index : Nat}
    {insn : Instruction Label}
    (hb : ∀ {type}, Brings context code index insn type → P type) :
    KeepsAll P (execute context code index insn) := by
  cases insn with
  | label _ => exact keeps_pure trivial
  | line _ _ => exact keeps_pure trivial
  | frame _ _ => exact keeps_pure trivial
  | plain op => exact keeps_executePlain ht op
  | int op operand =>
    refine keeps_ite (fun _ => ?_) fun _ => keeps_pushPlain ht ⟨⟨nofun, rfl⟩, nofun, nofun⟩
    refine (keeps_popExpecting ht _).bind fun _ _ => ?_
    split
    · exact keeps_push nofun (hb .primitives)
    · exact keeps_fail _
  | var op slot => exact keeps_executeVar ht op slot
  | type op name => exact keeps_executeType ht hb
  | field op member => exact keeps_executeField ht hb
  | invoke op member _ => exact keeps_executeInvoke ht hb
  | invokeDynamic _ descriptor _ _ =>
    refine (keeps_lift (Q := fun type => parseMethod descriptor = .ok type)
      fun _ h => h).bind fun type hparsed => ?_
    exact (keeps_popArguments ht type).bind fun _ _ =>
      keeps_pushResult fun _ h => hb (.dynamic hparsed h)
  | jump op _ => exact keeps_executeJump ht op
  | load value => exact keeps_push (ordinary_literalType value).1 (hb .literal)
  | increment slot amount =>
    intro f _ f' hf hr
    obtain ⟨_, f₀, hg, h₀⟩ := run_bind_eq_ok.mp hr
    cases hg
    split at h₀
    · cases h₀
    · cases h₀
      exact ⟨hf, trivial⟩
  | tableSwitch _ _ _ _ => exact keeps_popExpecting ht _
  | lookupSwitch _ _ => exact keeps_popExpecting ht _
  | multiArray descriptor dimensions =>
    exact (keeps_forM fun _ _ => keeps_popExpecting ht _).bind fun _ _ =>
      keeps_push nofun (hb .dimensions)

end Instructions

end ClassTree.Flow
