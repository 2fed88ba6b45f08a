import ClassTree.Proofs.Flow.Invariants

namespace ClassTree

namespace VerificationType

variable {κ ν ν' : Type} {g : ν → ν'}

@[simp] theorem width_mapCreation (type : VerificationType κ ν) :
    (type.mapCreation g).width = type.width := by
  cases type <;> rfl

@[simp] theorem mapCreation_eq_top {type : VerificationType κ ν} :
    type.mapCreation g = .top ↔ type = .top := by
  cases type <;> simp [mapCreation]

end VerificationType

namespace Frame

variable {κ ν ν' : Type} {g : ν → ν'}

theorem expand_map (types : List (VerificationType κ ν)) :
    expand (types.map (·.mapCreation g)) = (expand types).map (·.mapCreation g) := by
  induction types with
  | nil => rfl
  | cons type types ih =>
    rw [List.map_cons, expand_cons, expand_cons, List.map_append, ih,
      VerificationType.width_mapCreation]
    split <;> rfl

@[simp] theorem isTop_mapCreation (type : VerificationType κ ν) :
    isTop (type.mapCreation g) = isTop type := by
  cases type <;> rfl

theorem trim_map (types : List (VerificationType κ ν)) :
    trim (types.map (·.mapCreation g)) = (trim types).map (·.mapCreation g) := by
  rw [trim, trim, ← List.map_reverse, List.dropWhile_map, ← List.map_reverse]
  congr 3
  funext type
  exact isTop_mapCreation type

end Frame

namespace Flow

open ClassTree.Frame

variable {hierarchy : Hierarchy} {f f' : SlotFrame} {P : SlotType → Prop}

/-- Merging the second frame into the first one succeeds and changes nothing, except that locals at
the end may get lost that nothing was known of. -/
def Covers (hierarchy : Hierarchy) (written flowing : SlotFrame) : Prop :=
  ∃ merged, mergeFrames hierarchy written flowing = .ok merged ∧
    trim merged.locals = trim written.locals ∧ merged.stack = written.stack

theorem covers_iff : Covers hierarchy f f' ↔ f.stack.length = f'.stack.length ∧
    Above hierarchy f.stack f'.stack ∧
    trim (List.zipWith (mergeTypes hierarchy) f.locals f'.locals) = trim f.locals := by
  constructor
  · rintro ⟨merged, hm, hlocals, hstack⟩
    obtain ⟨hlen, -, rfl⟩ := mergeFrames_eq_ok.mp hm
    exact ⟨hlen, hstack, hlocals⟩
  · rintro ⟨hlen, hstack, hlocals⟩
    exact ⟨_, mergeFrames_eq_ok.mpr ⟨hlen, hstack.mergeable, rfl⟩, hlocals, hstack⟩

theorem Absorbs.covers (h : Absorbs hierarchy f f') : Covers hierarchy f f' :=
  ⟨f, h, rfl, rfl⟩

theorem zipWith_replicate_top (n : Nat) (others : List SlotType) :
    List.zipWith (mergeTypes hierarchy) (List.replicate n .top) others =
      List.replicate (min n others.length) .top := by
  induction n generalizing others with
  | zero => simp
  | succ n ih =>
    cases others with
    | nil => simp
    | cons other others =>
      rw [List.replicate_succ, List.zipWith_cons_cons, ih, top_mergeTypes, List.length_cons,
        Nat.succ_min_succ, List.replicate_succ]

/-- Locals at the end that nothing is known of make no difference. -/
theorem covers_append_top (locals stack : List SlotType) (n : Nat) :
    Covers hierarchy ⟨locals ++ List.replicate n .top, stack⟩ f' ↔
      Covers hierarchy ⟨locals, stack⟩ f' := by
  have hzip : ∃ m, List.zipWith (mergeTypes hierarchy) (locals ++ List.replicate n .top) f'.locals =
      List.zipWith (mergeTypes hierarchy) locals f'.locals ++ List.replicate m .top := by
    generalize f'.locals = others
    induction locals generalizing others with
    | nil => exact ⟨_, zipWith_replicate_top n others⟩
    | cons type locals ih =>
      cases others with
      | nil => exact ⟨0, rfl⟩
      | cons other others =>
        obtain ⟨m, hm⟩ := ih others
        refine ⟨m, ?_⟩
        rw [List.cons_append, List.zipWith_cons_cons, hm, List.zipWith_cons_cons]
        rfl
  obtain ⟨m, hm⟩ := hzip
  rw [covers_iff, covers_iff]
  simp only [hm, trim_append_replicate]

/-- The frame with other places of creation. -/
def SlotFrame.mapCreation (g : Nat → Nat) (f : SlotFrame) : SlotFrame :=
  ⟨f.locals.map (·.mapCreation g), f.stack.map (·.mapCreation g)⟩

def Apart (P : SlotType → Prop) (g : Nat → Nat) : Prop :=
  ∀ type type', P type → P type' → type.mapCreation g = type'.mapCreation g → type = type'

variable {g : Nat → Nat} {a b : List SlotType}

theorem apart_of_creations
    (h : ∀ {i j}, P (.uninitialized i) → P (.uninitialized j) → g i = g j → i = j) :
    Apart P g := by
  intro type type' ht ht' he
  cases type with
  | uninitialized i =>
    cases type' with
    | uninitialized j => rw [h ht ht' (VerificationType.uninitialized.inj he)]
    | _ => cases he
  | _ => cases type' <;> first | exact he | cases he

theorem Apart.mergeTypes (hg : Apart P g) {type type' : SlotType} (h : P type) (h' : P type') :
    mergeTypes hierarchy (type.mapCreation g) (type'.mapCreation g) =
      (mergeTypes hierarchy type type').mapCreation g := by
  by_cases he : type = type'
  · rw [he, mergeTypes_self, mergeTypes_self]
  · have hne : type.mapCreation g ≠ type'.mapCreation g := fun h'' => he (hg _ _ h h' h'')
    unfold Flow.mergeTypes
    rw [if_neg he, if_neg hne]
    cases type <;> cases type' <;> rfl

theorem Apart.zipWith (hg : Apart P g) (ha : ∀ type ∈ a, P type) (hb : ∀ type ∈ b, P type) :
    List.zipWith (Flow.mergeTypes hierarchy) (a.map (·.mapCreation g)) (b.map (·.mapCreation g)) =
      (List.zipWith (Flow.mergeTypes hierarchy) a b).map (·.mapCreation g) := by
  induction a generalizing b with
  | nil => simp
  | cons type a ih =>
    cases b with
    | nil => simp
    | cons type' b =>
      rw [List.map_cons, List.map_cons, List.zipWith_cons_cons, List.zipWith_cons_cons,
        List.map_cons, hg.mergeTypes (ha type (by simp)) (hb type' (by simp)),
        ih (fun t ht => ha t (by simp [ht])) (fun t ht => hb t (by simp [ht]))]

theorem Apart.map_inj (hg : Apart P g) (ha : ∀ type ∈ a, P type) (hb : ∀ type ∈ b, P type) :
    a.map (·.mapCreation g) = b.map (·.mapCreation g) ↔ a = b := by
  constructor
  · intro h
    induction a generalizing b with
    | nil =>
      rw [List.map_nil] at h
      exact (List.map_eq_nil_iff.mp h.symm).symm
    | cons type a ih =>
      cases b with
      | nil => cases h
      | cons type' b =>
        obtain ⟨hhead, htail⟩ := List.cons.inj h
        rw [hg _ _ (ha type (by simp)) (hb type' (by simp)) hhead,
          ih (fun t ht => ha t (by simp [ht])) (fun t ht => hb t (by simp [ht])) htail]
  · rintro rfl
    rfl

theorem mem_trim {type : SlotType} (h : type ∈ trim a) : type ∈ a := by
  rw [trim, List.mem_reverse] at h
  exact List.mem_reverse.mp ((List.dropWhile_sublist _).mem h)

/-- Renaming makes no difference to what is allowed for. -/
theorem covers_mapCreation (hl : Lenient P) (hg : Apart P g) (hf : ∀ type ∈ f.locals, P type)
    (hs : ∀ type ∈ f.stack, P type) (hf' : ∀ type ∈ f'.locals, P type)
    (hs' : ∀ type ∈ f'.stack, P type) :
    Covers hierarchy (f.mapCreation g) (f'.mapCreation g) ↔ Covers hierarchy f f' := by
  rw [covers_iff, covers_iff]
  simp only [SlotFrame.mapCreation, Above, List.length_map, trim_map, hg.zipWith hf hf',
    hg.zipWith hs hs']
  rw [hg.map_inj (zipWith_allowed hl.mixes hs hs') hs,
    hg.map_inj (fun type ht => zipWith_allowed hl.mixes hf hf' type (mem_trim ht))
      (fun type ht => hf type (mem_trim ht))]

section Entering

variable {program : Program} {flow : TypeFlow} {point : Nat}

/-- With what frames control enters a place other than from the element before it: by a jump or a
case of a switch, or by an exception, which can be thrown before an instruction has had its effect
or after it. -/
inductive Program.Enters (hierarchy : Hierarchy) (program : Program) (flow : TypeFlow) :
    Nat → SlotFrame → Prop
  | jump {i point : Nat} {f g : SlotFrame} {insn : Instruction Label} {label : Label}
      (from_ : flow.At i f) (at_ : program.code[i]? = some insn)
      (runs : (execute program.context program.code i insn).run f = .ok ((), g))
      (mem : label ∈ insn.jumpTargets) (placed : program.positions[label]? = some point) :
      Program.Enters hierarchy program flow point g
  | before {i : Nat} {f : SlotFrame} {insn : Instruction Label} {range : HandlerRange}
      (from_ : flow.At i f) (at_ : program.code[i]? = some insn) (real : insn.isMarker = false)
      (mem : range ∈ program.handlers) (covers : range.covers i = true) :
      Program.Enters hierarchy program flow range.handler
        ⟨f.locals, program.caught hierarchy range.handler⟩
  | after {i : Nat} {f g : SlotFrame} {insn : Instruction Label} {range : HandlerRange}
      (from_ : flow.At i f) (at_ : program.code[i]? = some insn) (real : insn.isMarker = false)
      (runs : (execute program.context program.code i insn).run f = .ok ((), g))
      (mem : range ∈ program.handlers) (covers : range.covers i = true) :
      Program.Enters hierarchy program flow range.handler
        ⟨g.locals, program.caught hierarchy range.handler⟩

theorem mem_successors {code : Array (Instruction Label)} {positions : Positions} {i : Nat}
    {insn : Instruction Label} {targets : List Nat} {label : Label}
    (h : successors code positions i insn = .ok targets) (hm : label ∈ insn.jumpTargets)
    (hp : positions[label]? = some point) : point ∈ targets := by
  obtain ⟨jumps, hj, h⟩ := bind_eq_ok.mp h
  have hmem : point ∈ jumps := by
    obtain ⟨found, hfound, he⟩ := exists_mem_of_mapM hj hm
    rw [Positions.find, hp] at he
    exact Except.ok.inj he ▸ hfound
  split at h
  · split at h
    · cases h
    · obtain rfl := pure_eq_ok.mp h
      exact List.mem_append_left _ hmem
  · obtain rfl := pure_eq_ok.mp h
    exact hmem

/-- The frame at the place allows for what enters there. -/
theorem Program.Enters.allows (h : program.Enters hierarchy flow point f)
    (hp : flow.PostFixpoint hierarchy program) : flow.Allows hierarchy point f := by
  cases h with
  | jump from_ at_ runs mem placed =>
    obtain ⟨insn, g, targets, hs⟩ := hp.settled from_
    obtain rfl := Option.some.inj (hs.at_.symm.trans at_)
    cases hs.runs.symm.trans runs
    exact hs.next _ (mem_successors hs.goes mem placed)
  | before from_ at_ real mem covers =>
    obtain ⟨insn, g, targets, hs⟩ := hp.settled from_
    obtain rfl := Option.some.inj (hs.at_.symm.trans at_)
    exact (hs.handler real _ mem covers).1
  | after from_ at_ real runs mem covers =>
    obtain ⟨insn, g, targets, hs⟩ := hp.settled from_
    obtain rfl := Option.some.inj (hs.at_.symm.trans at_)
    cases hs.runs.symm.trans runs
    exact (hs.handler real _ mem covers).2

/-- What holds of all frames holds of those that enter somewhere. -/
theorem Invariant.enters {Q : SlotFrame → Prop} (hq : Invariant hierarchy program Q)
    (hf : Flow.computeTypes hierarchy program = .ok flow)
    (h : program.Enters hierarchy flow point f) :
    Q f := by
  cases h with
  | jump from_ at_ runs _ _ => exact hq.execute at_ (hq.computeTypes hf from_) runs
  | before from_ _ _ _ _ => exact hq.enter _ (hq.computeTypes hf from_)
  | after from_ at_ _ runs _ _ => exact hq.enter _ (hq.execute at_ (hq.computeTypes hf from_) runs)

/-- An element without effect leads on to the next one. -/
theorem settled_marker {i : Nat} {g : SlotFrame} {insn : Instruction Label} {targets : List Nat}
    (hs : flow.Settled hierarchy program i f insn g targets) (hm : insn.isMarker = true) :
    g = f ∧ i + 1 ∈ targets := by
  have hruns := hs.runs
  have hgoes := hs.goes
  cases insn with
  | label | line | frame =>
    cases hruns
    refine ⟨rfl, ?_⟩
    obtain ⟨jumps, -, hgoes⟩ := bind_eq_ok.mp hgoes
    rw [if_pos (by rfl)] at hgoes
    split at hgoes
    · cases hgoes
    · obtain rfl := pure_eq_ok.mp hgoes
      simp
  | _ => cases hm

/-- A frame allows for the frames before elements without effect that lead to it. -/
theorem allows_of_markers (hj : hierarchy.JoinsClasses) (hp : flow.PostFixpoint hierarchy program)
    {i j : Nat} (hij : i ≤ j)
    (hm : ∀ k, i ≤ k → k < j → ∃ insn, program.code[k]? = some insn ∧ insn.isMarker = true)
    (hf : flow.At i f) : flow.Allows hierarchy j f := by
  induction hij with
  | refl => exact ⟨f, hf, .refl f⟩
  | @step j hij ih =>
    obtain ⟨f', hf', ha⟩ := ih fun k hik hkj => hm k hik (Nat.lt_succ_of_lt hkj)
    obtain ⟨insn, hat, hmark⟩ := hm j hij (Nat.lt_succ_self j)
    obtain ⟨insn', g, targets, hs⟩ := hp.settled hf'
    obtain rfl := Option.some.inj (hs.at_.symm.trans hat)
    obtain ⟨rfl, hnext⟩ := settled_marker hs hmark
    obtain ⟨f'', hf'', ha'⟩ := hs.next _ hnext
    exact ⟨f'', hf'', ha'.trans hj ha⟩

end Entering

end Flow
end ClassTree
