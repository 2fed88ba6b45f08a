import ClassTree.Proofs.Bytes.Reading
import ClassTree.Proofs.Code.Outline
import ClassTree.Proofs.Reading.Labels

namespace ClassTree

def Skip.drops {ι : Type} (skip : Skip) : Instruction ι → Bool
  | .line .. => skip.debug
  | .frame .. => skip.frames
  | _ => false

namespace Code

open Reader

variable {skip : Skip} {owner : String} {method : Method} {table : Pool.Table}

def CodeTable.droppedBy (skip : Skip) : CodeTable → Bool
  | lines _ | localVariables _ | signatures _ => skip.debug
  | frames _ => skip.frames

theorem readTable_skip {name : String} {info : Cursor} {found : Option CodeTable}
    (h : readTable owner method table ⟨false, false⟩ name info = .ok found) :
    readTable owner method table skip name info =
      .ok (found.filter fun found => !found.droppedBy skip) := by
  have hread : ∀ {α : Type} {dropped : Bool} {x : Except Error α} {make : α → CodeTable},
      (∀ a, (make a).droppedBy skip = dropped) → (do return some (make (← x))) = .ok found →
      (if dropped then pure none else do return some (make (← x))) =
        Except.ok (found.filter fun found => !found.droppedBy skip) := by
    intro α dropped x make hmake hx
    obtain ⟨a, ha, hfound⟩ := bind_eq_ok.mp hx
    obtain rfl := pure_eq_ok.mp hfound
    rw [Option.filter_some, hmake]
    cases dropped with
    | true => rfl
    | false => exact hx
  unfold readTable at h ⊢
  split at h
  · exact hread (fun _ => rfl) h
  · exact hread (fun _ => rfl) h
  · exact hread (fun _ => rfl) h
  · obtain ⟨locals, hlocals, h⟩ := bind_eq_ok.mp h
    rw [hlocals]
    exact hread (fun _ => rfl) h
  · obtain rfl := pure_eq_ok.mp h
    rfl

namespace Listing

variable {listing : Listing} {offset : Nat}

def without (listing : Listing) (skip : Skip) : Listing :=
  { listing with tables := listing.tables.filter fun found => !found.droppedBy skip }

/-- Of entries that are all in tables of one kind, either all stay or all go. -/
theorem flatMap_without {α : Type} {f : CodeTable → List α} {dropped : Bool}
    (h : ∀ found : CodeTable, f found = [] ∨ found.droppedBy skip = dropped) :
    (listing.without skip).tables.flatMap f =
      if dropped then [] else listing.tables.flatMap f := by
  change (listing.tables.filter fun found => !found.droppedBy skip).flatMap f = _
  induction listing.tables with
  | nil => simp
  | cons found tables ih =>
    rw [List.filter_cons, List.flatMap_cons]
    rcases h found with hnil | hdropped
    · rw [hnil, List.nil_append, ← ih]
      split
      · rw [List.flatMap_cons, hnil, List.nil_append]
      · rfl
    · rw [hdropped]
      cases dropped with
      | true => exact ih
      | false => exact congrArg (f found ++ ·) ih

theorem lineEntries_without : (listing.without skip).lineEntries =
    if skip.debug then [] else listing.lineEntries :=
  flatMap_without fun found => by cases found <;> simp [CodeTable.droppedBy]

theorem variableEntries_without : (listing.without skip).variableEntries =
    if skip.debug then [] else listing.variableEntries :=
  flatMap_without fun found => by cases found <;> simp [CodeTable.droppedBy]

theorem signatureEntries_without : (listing.without skip).signatureEntries =
    if skip.debug then [] else listing.signatureEntries :=
  flatMap_without fun found => by cases found <;> simp [CodeTable.droppedBy]

theorem frameEntries_without : (listing.without skip).frameEntries =
    if skip.frames then [] else listing.frameEntries :=
  flatMap_without fun found => by cases found <;> simp [CodeTable.droppedBy]

theorem hasVariables_without : (listing.without skip).hasVariables =
    (!skip.debug && listing.hasVariables) := by
  unfold hasVariables without
  rw [List.any_filter]
  cases hskip : skip.debug with
  | true =>
    refine List.any_eq_false.mpr fun found _ => ?_
    cases found <;> simp [CodeTable.droppedBy, hskip]
  | false =>
    refine congrArg listing.tables.any (funext fun found => ?_)
    cases found <;> simp [CodeTable.droppedBy, hskip]

/-- What is left refers to nothing new. -/
theorem mentions_without (hm : offset ∈ (listing.without skip).mentions) :
    offset ∈ listing.mentions := by
  rcases List.mem_append.mp hm with hm | hm
  · exact List.mem_append_left _ hm
  · obtain ⟨found, hf, hm⟩ := List.mem_flatMap.mp hm
    exact List.mem_append_right _
      (List.mem_flatMap.mpr ⟨found, List.mem_of_mem_filter hf, hm⟩)

theorem misplaced?_without (h : listing.misplaced? = none) :
    (listing.without skip).misplaced? = none :=
  misplaced?_eq_none.mpr fun offset hm => misplaced?_eq_none.mp h offset (mentions_without hm)

theorem notes_without (offset : Nat) : (listing.without skip).notes offset =
    (listing.notes offset).filter fun insn => !skip.drops insn := by
  unfold notes
  rw [lineEntries_without, frameEntries_without, List.filter_append]
  congr 1
  · rw [List.filter_map]
    cases hskip : skip.debug with
    | true => simp [byOffset, Function.comp_def, Skip.drops, hskip]
    | false => simp [Function.comp_def, Skip.drops, hskip]
  · cases hskip : skip.frames with
    | true =>
      rw [if_pos rfl]
      cases (Std.HashMap.ofList listing.frameEntries)[offset]? <;> simp [Skip.drops, hskip]
    | false =>
      rw [if_neg Bool.false_ne_true]
      cases (Std.HashMap.ofList listing.frameEntries)[offset]? <;> simp [Skip.drops, hskip]

theorem content_without (h : Ascending listing.instructions listing.length) :
    (listing.without skip).content = listing.content.filter fun entry => !skip.drops entry.2 := by
  have hkept : ∀ entry ∈ listing.instructions, skip.drops entry.2 = false := by
    intro entry hm
    have hreal := h.real entry hm
    cases hi : entry.2 with
    | line => rw [hi] at hreal; cases hreal
    | frame => rw [hi] at hreal; cases hreal
    | _ => rfl
  have hmap : ∀ (offset : Nat) (code : List (Instruction Nat)),
      (code.map (offset, ·)).filter (fun entry => !skip.drops entry.2) =
        (code.filter fun insn => !skip.drops insn).map (offset, ·) := by
    intro offset code
    rw [List.filter_map]
    rfl
  unfold content
  rw [List.filter_append, List.filter_flatMap, hmap, ← notes_without]
  congr 1
  refine List.flatMap_congr fun entry hm => ?_
  rw [hmap, List.filter_append, ← notes_without, List.filter_singleton, hkept entry hm]
  rfl

/-- Code that is added without what is skipped has the same instructions at the same places, with
what is left of its lines and frames. -/
theorem outline_without (h : Ascending listing.instructions listing.length)
    (hp : listing.misplaced? = none) : (listing.without skip).body.outline =
      listing.body.outline.filter fun entry => !skip.drops entry.2 := by
  have hdrops : ∀ insn : Instruction Nat,
      skip.drops (insn.mapLabels listing.rank) = skip.drops insn := by
    intro insn
    cases insn <;> rfl
  rw [@outline_body (listing.without skip) h (misplaced?_without hp), outline_body h hp,
    content_without h, List.filter_map]
  simp only [Function.comp_def, hdrops]
  rfl

end Listing

theorem readListing_skip {listing : Listing} {cursor cursor' : Cursor}
    (h : (readListing owner method table ⟨false, false⟩).run cursor = .ok (listing, cursor')) :
    (readListing owner method table skip).run cursor = .ok (listing.without skip, cursor') := by
  obtain ⟨maxStack, c₁, h₁, h⟩ := run_bind_eq_ok.mp h
  obtain ⟨maxLocals, c₂, h₂, h⟩ := run_bind_eq_ok.mp h
  obtain ⟨length, c₃, h₃, h⟩ := run_bind_eq_ok.mp h
  obtain ⟨code, c₄, h₄, h⟩ := run_bind_eq_ok.mp h
  obtain ⟨instructions, c₅, h₅, h⟩ := run_bind_eq_ok.mp h
  obtain ⟨handlers, c₆, h₆, h⟩ := run_bind_eq_ok.mp h
  obtain ⟨attributes, c₇, h₇, h⟩ := run_bind_eq_ok.mp h
  obtain ⟨tables, c₈, h₈, h⟩ := run_bind_eq_ok.mp h
  obtain ⟨rfl, rfl⟩ := Prod.mk.inj (Except.ok.inj h)
  obtain ⟨htables, rfl⟩ := run_mapM_lift.mp h₈
  have hkept : List.Forall₂ (fun entry found =>
      readTable owner method table skip entry.1 entry.2 = .ok found) attributes
        (tables.map (Option.filter fun found => !found.droppedBy skip)) :=
    List.forall₂_map_right_iff.mpr (htables.imp fun _ _ hfound => readTable_skip hfound)
  refine run_bind_eq_ok.mpr ⟨_, _, h₁, run_bind_eq_ok.mpr ⟨_, _, h₂, ?_⟩⟩
  refine run_bind_eq_ok.mpr ⟨_, _, h₃, run_bind_eq_ok.mpr ⟨_, _, h₄, ?_⟩⟩
  refine run_bind_eq_ok.mpr ⟨_, _, h₅, run_bind_eq_ok.mpr ⟨_, _, h₆, ?_⟩⟩
  refine run_bind_eq_ok.mpr ⟨_, _, h₇, ?_⟩
  refine run_bind_eq_ok.mpr ⟨_, _, run_mapM_lift.mpr ⟨hkept, rfl⟩, ?_⟩
  rw [List.filterMap_map, Function.id_comp, Listing.without, List.filter_filterMap]
  rfl

end Code
end ClassTree
