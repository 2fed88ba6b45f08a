import ClassTree.Proofs.Code.Skipping
import ClassTree.Proofs.Reading.Integrity

namespace ClassTree

open Reader

namespace Method

def placedHandlers (method : Method) : List Code.OffsetHandler :=
  method.handlers.map (Code.resolveHandler method.body.placeOf)

/-- Variables, with their signatures and with numbers of instructions for labels. -/
def placedVariables (method : Method) : Option (List (Code.VariableEntry × Option String)) :=
  method.localVariables.map (List.map (Code.resolveVariable method.body.placeOf))

/-- The second method is the first one without what is skipped. -/
structure Skimmed (skip : Skip) (method method' : Method) : Prop where
  declaration : SameDeclaration method' method
  signature : method'.signature = method.signature
  exceptions : method'.exceptions = method.exceptions
  maxStack : method'.maxStack = method.maxStack
  maxLocals : method'.maxLocals = method.maxLocals
  code : method'.body.outline = method.body.outline.filter fun entry => !skip.drops entry.2
  handlers : method'.placedHandlers = method.placedHandlers
  localVariables : method'.placedVariables = if skip.debug then none else method.placedVariables
  attributes : method'.attributes = method.attributes.filter fun entry =>
    !(skip.debug && entry.name == "MethodParameters")

def Bare (method : Method) : Prop :=
  method.handlers = [] ∧ method.localVariables = none

variable {skip : Skip} {owner : String} {table : Pool.Table} {method method' next : Method}

theorem SameCode.bare (h : SameCode method' method) (hb : method.Bare) : method'.Bare :=
  ⟨h.handlers.trans hb.1, h.localVariables.trans hb.2⟩

/-- The code of both methods is added at the same time. -/
theorem Skimmed.addedTo {listing : Code.Listing} (h : Skimmed skip method method')
    (hb : method.Bare) (hb' : method'.Bare)
    (ha : Code.Ascending listing.instructions listing.length) (hp : listing.misplaced? = none) :
    Skimmed skip (listing.addedTo method) ((listing.without skip).addedTo method') := by
  have hp' : (listing.without skip).misplaced? = none := Code.Listing.misplaced?_without hp
  refine ⟨⟨h.declaration.access, h.declaration.name, h.declaration.descriptor⟩, h.signature,
    h.exceptions, rfl, rfl, Code.Listing.outline_without ha hp, ?_, ?_, h.attributes⟩
  · exact (@Code.Listing.resolveHandler_addedTo (listing.without skip) method' ha hp' hb'.1).trans
      (Code.Listing.resolveHandler_addedTo ha hp hb.1).symm
  · refine (@Code.Listing.resolveVariable_addedTo (listing.without skip) method' ha hp'
      hb'.2).trans ?_
    rw [placedVariables]
    refine Eq.trans ?_ (congrArg (fun found => if skip.debug then none else found)
      (Code.Listing.resolveVariable_addedTo ha hp hb.2).symm)
    rw [Code.Listing.hasVariables_without, Code.Listing.signatureEntries_without,
      Code.Listing.variableEntries_without]
    cases skip.debug with
    | true => rfl
    | false => rfl

/-- What an attribute adds to one method, it adds to the other, unless it is skipped. -/
theorem Skimmed.addAttribute {name : String} {info : Cursor} (h : Skimmed skip method method')
    (hb : name = "Code" → method.Bare ∧ method'.Bare)
    (ha : method.addAttribute owner table ⟨false, false⟩ name info = .ok next) :
    ∃ next', method'.addAttribute owner table skip name info = .ok next' ∧
      Skimmed skip next next' := by
  have hdeclaration := h.declaration
  unfold Method.addAttribute at ha ⊢
  split at ha
  · obtain ⟨hbare, hbare'⟩ := hb rfl
    obtain ⟨listing, hparse, hadd⟩ := bind_eq_ok.mp ha
    obtain ⟨cursor, hrun⟩ := parse_eq_ok.mp hparse
    obtain ⟨hp, rfl⟩ := Code.Listing.addTo_eq_ok.mp hadd
    rw [← h.declaration.readListing_eq] at hrun
    refine ⟨_, bind_eq_ok.mpr ⟨listing.without skip, parse_eq_ok.mpr ⟨cursor,
      Code.readListing_skip hrun⟩, Code.Listing.addTo_eq_ok.mpr
        ⟨Code.Listing.misplaced?_without hp, rfl⟩⟩, ?_⟩
    exact h.addedTo hbare hbare' (Code.ascending_readListing hrun) hp
  · obtain ⟨exceptions, hparse, ha⟩ := bind_eq_ok.mp ha
    obtain rfl := pure_eq_ok.mp ha
    exact ⟨_, bind_eq_ok.mpr ⟨exceptions, hparse, rfl⟩,
      { h with
        declaration := ⟨hdeclaration.access, hdeclaration.name, hdeclaration.descriptor⟩
        exceptions := congrArg (· ++ exceptions) h.exceptions }⟩
  · obtain ⟨signature, hparse, ha⟩ := bind_eq_ok.mp ha
    obtain rfl := pure_eq_ok.mp ha
    exact ⟨_, bind_eq_ok.mpr ⟨signature, hparse, rfl⟩,
      { h with
        declaration := ⟨hdeclaration.access, hdeclaration.name, hdeclaration.descriptor⟩
        signature := rfl }⟩
  · obtain rfl := pure_eq_ok.mp ha
    cases hskip : skip.debug with
    | true =>
      refine ⟨method', rfl, { h with
        declaration := ⟨hdeclaration.access, hdeclaration.name, hdeclaration.descriptor⟩
        attributes := ?_ }⟩
      rw [h.attributes, List.filter_append]
      simp [hskip]
    | false =>
      refine ⟨_, rfl, { h with
        declaration := ⟨hdeclaration.access, hdeclaration.name, hdeclaration.descriptor⟩
        attributes := ?_ }⟩
      rw [h.attributes, List.filter_append]
      simp [hskip]
  · rename_i hcode hexceptions hsignature hparameters
    obtain rfl := pure_eq_ok.mp ha
    refine ⟨_, rfl, { h with
      declaration := ⟨hdeclaration.access, hdeclaration.name, hdeclaration.descriptor⟩
      attributes := ?_ }⟩
    have hname : (name == "MethodParameters") = false := beq_eq_false_iff_ne.mpr hparameters
    rw [h.attributes, List.filter_append]
    simp [hname]

def codeCount (attributes : List (String × Cursor)) : Nat :=
  attributes.countP fun entry => entry.1 == "Code"

theorem Skimmed.addAttributes {attributes : List (String × Cursor)}
    (h : Skimmed skip method method') (hone : codeCount attributes ≤ 1)
    (hb : 0 < codeCount attributes → method.Bare ∧ method'.Bare)
    (ha : attributes.foldlM (fun method (name, info) =>
      method.addAttribute owner table ⟨false, false⟩ name info) method = .ok next) :
    ∃ next', attributes.foldlM (fun method (name, info) =>
      method.addAttribute owner table skip name info) method' = .ok next' ∧
        Skimmed skip next next' := by
  induction attributes generalizing method method' with
  | nil =>
    obtain rfl := pure_eq_ok.mp ha
    exact ⟨method', rfl, h⟩
  | cons first attributes ih =>
    obtain ⟨name, info⟩ := first
    obtain ⟨middle, hfirst, ha⟩ := bind_eq_ok.mp ha
    have hbare : name = "Code" → method.Bare ∧ method'.Bare := by
      rintro rfl
      exact hb (by simp [codeCount])
    obtain ⟨middle', hfirst', hmiddle⟩ := h.addAttribute hbare hfirst
    have hrest : codeCount attributes ≤ 1 := by
      refine Nat.le_trans ?_ hone
      exact (List.sublist_cons_self _ attributes).countP_le
    have hbare' : 0 < codeCount attributes → middle.Bare ∧ middle'.Bare := by
      intro hpos
      -- there is one among the rest, so the first one is not code
      have hname : name ≠ "Code" := by
        rintro rfl
        rw [codeCount, List.countP_cons_of_pos (by simp)] at hone
        exact Nat.not_succ_le_zero _ (Nat.le_trans hpos (Nat.le_of_succ_le_succ hone))
      obtain ⟨hm, hm'⟩ := hb (Nat.lt_of_lt_of_le hpos (List.sublist_cons_self _ _).countP_le)
      exact ⟨((addAttribute_cases hfirst).2.resolve_left fun hc => hname hc.1).2.bare hm,
        ((addAttribute_cases hfirst').2.resolve_left fun hc => hname hc.1).2.bare hm'⟩
    obtain ⟨next', hlast, hnext⟩ := ih hmiddle hrest hbare' ha
    exact ⟨next', bind_eq_ok.mpr ⟨middle', hfirst', hlast⟩, hnext⟩

theorem skimmed_declared (skip : Skip) (access : AccessFlags .ofMethod) (name descriptor : String) :
    Skimmed skip (declared access name descriptor) (declared access name descriptor) := by
  refine ⟨⟨rfl, rfl, rfl⟩, rfl, rfl, rfl, rfl, rfl, rfl, ?_, rfl⟩
  cases skip.debug <;> rfl

theorem skimmed_ofRaw {member : RawMember} (hone : codeCount member.attributes ≤ 1)
    (h : Method.ofRaw owner table ⟨false, false⟩ member = .ok method) :
    ∃ method', Method.ofRaw owner table skip member = .ok method' ∧ Skimmed skip method method' :=
  (skimmed_declared skip _ _ _).addAttributes hone (fun _ => ⟨⟨rfl, rfl⟩, ⟨rfl, rfl⟩⟩) h

end Method

namespace Class

variable {skip : Skip} {bytes : Bytes} {tree : Class}

/-- The second class is the first one without what is skipped. -/
structure Skimmed (skip : Skip) (tree tree' : Class) : Prop where
  version : tree'.version = tree.version
  access : tree'.access = tree.access
  name : tree'.name = tree.name
  superName : tree'.superName = tree.superName
  interfaces : tree'.interfaces = tree.interfaces
  signature : tree'.signature = tree.signature
  sourceFile : tree'.sourceFile = if skip.debug then none else tree.sourceFile
  innerClasses : tree'.innerClasses = tree.innerClasses
  fields : tree'.fields = tree.fields
  methods : List.Forall₂ (Method.Skimmed skip) tree.methods tree'.methods
  attributes : tree'.attributes = tree.attributes.filter fun entry =>
    !(skip.debug && entry.name == "SourceDebugExtension")
  pool : tree'.pool = tree.pool

theorem Skimmed.addAttribute {state next : Class × Pool.Table} {tree' : Class} {name : String}
    {info : Cursor} (h : Skimmed skip state.1 tree')
    (ha : Class.addAttribute ⟨false, false⟩ state name info = .ok next) :
    ∃ next', Class.addAttribute skip (tree', state.2) name info = .ok (next', next.2) ∧
      Skimmed skip next.1 next' := by
  obtain ⟨tree, table⟩ := state
  unfold Class.addAttribute at ha ⊢
  dsimp only at ha h ⊢
  split at ha
  · obtain ⟨text, hparse, ha⟩ := bind_eq_ok.mp ha
    obtain rfl := pure_eq_ok.mp ha
    cases hskip : skip.debug with
    | true => exact ⟨tree', rfl, { h with sourceFile := by rw [h.sourceFile, hskip]; rfl }⟩
    | false =>
      exact ⟨_, bind_eq_ok.mpr ⟨text, hparse, rfl⟩, { h with sourceFile := by rw [hskip]; rfl }⟩
  · obtain rfl := pure_eq_ok.mp ha
    cases hskip : skip.debug with
    | true =>
      refine ⟨tree', rfl, { h with attributes := ?_ }⟩
      rw [h.attributes, List.filter_append]
      simp [hskip]
    | false =>
      refine ⟨_, rfl, { h with attributes := ?_ }⟩
      rw [h.attributes, List.filter_append]
      simp [hskip]
  · obtain ⟨signature, hparse, ha⟩ := bind_eq_ok.mp ha
    obtain rfl := pure_eq_ok.mp ha
    exact ⟨_, bind_eq_ok.mpr ⟨signature, hparse, rfl⟩, { h with signature := rfl }⟩
  · obtain ⟨entries, hparse, ha⟩ := bind_eq_ok.mp ha
    obtain rfl := pure_eq_ok.mp ha
    exact ⟨_, bind_eq_ok.mpr ⟨entries, hparse, rfl⟩,
      { h with innerClasses := congrArg (· ++ entries) h.innerClasses }⟩
  · obtain ⟨entries, hparse, ha⟩ := bind_eq_ok.mp ha
    obtain rfl := pure_eq_ok.mp ha
    exact ⟨_, bind_eq_ok.mpr ⟨entries, hparse, rfl⟩, h⟩
  · rename_i hsource hextension _ _ _
    obtain rfl := pure_eq_ok.mp ha
    refine ⟨_, rfl, { h with attributes := ?_ }⟩
    have hname : (name == "SourceDebugExtension") = false := beq_eq_false_iff_ne.mpr hextension
    rw [h.attributes, List.filter_append]
    simp [hname]

theorem skimmed_ofHeader (skip : Skip) (header : Header) (table : Pool.Table) :
    Skimmed skip (ofHeader header table) (ofHeader header table) := by
  refine ⟨rfl, rfl, rfl, rfl, rfl, rfl, ?_, rfl, rfl, .nil, rfl, rfl⟩
  cases skip.debug <;> rfl

/-- No method of the file has several code attributes. -/
def OneCode (bytes : Bytes) : Prop :=
  ∀ header table fields methods attributes,
    (Cursor.ofBytes bytes).parse readParts = .ok (header, table, fields, methods, attributes) →
    ∀ member ∈ methods, Method.codeCount member.attributes ≤ 1

/-- What can be read can be read without debug information or frames, and these are all that is
missing then. -/
theorem skimmed_read (h : Class.read ⟨false, false⟩ bytes = .ok tree) (hone : OneCode bytes)
    (skip : Skip) : ∃ tree', Class.read skip bytes = .ok tree' ∧ Skimmed skip tree tree' := by
  obtain ⟨⟨header, plain, rawFields, rawMethods, attributes⟩, hparts, h⟩ := bind_eq_ok.mp h
  obtain ⟨⟨headed, table⟩, hattributes, h⟩ := bind_eq_ok.mp h
  obtain ⟨fields, hfields, h⟩ := bind_eq_ok.mp h
  obtain ⟨methods, hmethods, h⟩ := bind_eq_ok.mp h
  obtain rfl := pure_eq_ok.mp h
  obtain ⟨⟨headed', table'⟩, hattributes', hheaded, htable⟩ :
      ∃ state, attributes.foldlM (fun state (name, info) => Class.addAttribute skip state name info)
        (ofHeader header plain, plain) = .ok state ∧ Skimmed skip headed state.1 ∧
          state.2 = table := by
    refine foldlM_follows (R := fun state state' : Class × Pool.Table =>
      Skimmed skip state.1 state'.1 ∧ state'.2 = state.2) ?_
        ⟨skimmed_ofHeader skip header plain, rfl⟩ hattributes
    rintro ⟨name, info⟩ - state next ⟨tree', _⟩ ⟨hs, rfl⟩ hnext
    obtain ⟨next', hnext', hs'⟩ := hs.addAttribute hnext
    exact ⟨_, hnext', hs', rfl⟩
  obtain rfl : table' = table := htable
  have hmethod : ∀ member ∈ rawMethods, ∀ method,
      Method.ofRaw header.name table' ⟨false, false⟩ member = .ok method →
        ∃ method', Method.ofRaw header.name table' skip member = .ok method' ∧
          Method.Skimmed skip method method' :=
    fun member hm _ => Method.skimmed_ofRaw (hone _ _ _ _ _ hparts member hm)
  obtain ⟨methods', hmethods', hall⟩ := mapM_follows hmethod hmethods
  refine ⟨_, bind_eq_ok.mpr ⟨_, hparts, bind_eq_ok.mpr ⟨_, hattributes', bind_eq_ok.mpr
    ⟨fields, hfields, bind_eq_ok.mpr ⟨methods', hmethods', rfl⟩⟩⟩⟩, ?_⟩
  exact { hheaded with fields := rfl, methods := hall, pool := rfl }

end Class

/-- A class with a line number, read without it. -/
theorem Returning.skimmed_file : Class.read ⟨false, false⟩ (file 0) = .ok (tree 0) ∧
    Class.OneCode (file 0) ∧ ∃ tree', Class.read ⟨true, true⟩ (file 0) = .ok tree' ∧
      Class.Skimmed ⟨true, true⟩ (tree 0) tree' := by
  have hone : Class.OneCode (file 0) := by
    intro header' table' fields methods attributes hparts found hm
    obtain ⟨base, hparse⟩ := parse_file 0
    cases hparse.symm.trans hparts
    obtain rfl := List.mem_singleton.mp hm
    exact show 1 ≤ 1 from Nat.le_refl 1
  have hread := @read_file 0 (.inl rfl)
  exact ⟨hread, hone, Class.skimmed_read hread hone ⟨true, true⟩⟩

end ClassTree
