import ClassTree.Proofs.Bytes.Reading
import ClassTree.Proofs.Code.Listing
import ClassTree.Reading

namespace ClassTree

open Reader

variable {owner : String} {table : Pool.Table} {skip : Skip} {method method' : Method}

namespace Code

/-- A listing is decoded from a code array of its length, and its tables are those that are not
dropped. -/
theorem parts_of_readListing {listing : Listing} {cursor cursor' : Cursor}
    (h : (readListing owner method table skip).run cursor = .ok (listing, cursor')) :
    (∃ code : Cursor, code.position = 0 ∧ code.rest.length = listing.length ∧
      decode table code = .ok listing.instructions) ∧
    ∃ (attributes : List (String × Cursor)) (tables : List (Option CodeTable)),
      List.Forall₂ (fun entry found => readTable owner method table skip entry.1 entry.2 =
        .ok found) attributes tables ∧ listing.tables = tables.filterMap id := by
  obtain ⟨maxStack, c₁, -, h⟩ := run_bind_eq_ok.mp h
  obtain ⟨maxLocals, c₂, -, h⟩ := run_bind_eq_ok.mp h
  obtain ⟨length, c₃, -, h⟩ := run_bind_eq_ok.mp h
  obtain ⟨code, c₄, hpart, h⟩ := run_bind_eq_ok.mp h
  obtain ⟨instructions, c₅, hdecode, h⟩ := run_bind_eq_ok.mp h
  obtain ⟨handlers, c₆, -, h⟩ := run_bind_eq_ok.mp h
  obtain ⟨attributes, c₇, -, h⟩ := run_bind_eq_ok.mp h
  obtain ⟨tables, c₈, htables, h⟩ := run_bind_eq_ok.mp h
  obtain ⟨rfl, -⟩ := Prod.mk.inj (Except.ok.inj h)
  obtain ⟨⟨front, after⟩, htake, hpart⟩ := bind_eq_ok.mp hpart
  obtain ⟨rfl, -⟩ := Prod.mk.inj (Except.ok.inj hpart)
  exact ⟨⟨_, rfl, (take_eq_ok htake).1, (run_lift.mp hdecode).1⟩, attributes, tables,
    (run_mapM_lift.mp htables).1, rfl⟩

/-- The code of a listing was split off at its front. -/
theorem ascending_readListing {listing : Listing} {cursor cursor' : Cursor}
    (h : (readListing owner method table skip).run cursor = .ok (listing, cursor')) :
    Ascending listing.instructions listing.length := by
  obtain ⟨⟨code, hstart, hlength, hdecode⟩, -⟩ := parts_of_readListing h
  exact hlength ▸ ascending_decode hstart hdecode

end Code

namespace Method

structure SameDeclaration (method method' : Method) : Prop where
  access : method.access = method'.access
  name : method.name = method'.name
  descriptor : method.descriptor = method'.descriptor

theorem SameDeclaration.trans {method'' : Method} (h : SameDeclaration method method')
    (h' : SameDeclaration method' method'') : SameDeclaration method method'' :=
  ⟨h.access.trans h'.access, h.name.trans h'.name, h.descriptor.trans h'.descriptor⟩

theorem sameDeclaration_addTo {listing : Code.Listing} (h : listing.addTo method = .ok method') :
    SameDeclaration method' method := by
  obtain ⟨-, rfl⟩ := Code.Listing.addTo_eq_ok.mp h
  exact ⟨rfl, rfl, rfl⟩

structure SameCode (method method' : Method) : Prop where
  body : method.body = method'.body
  handlers : method.handlers = method'.handlers
  localVariables : method.localVariables = method'.localVariables

theorem SameCode.trans {method'' : Method} (h : SameCode method method')
    (h' : SameCode method' method'') : SameCode method method'' :=
  ⟨h.body.trans h'.body, h.handlers.trans h'.handlers, h.localVariables.trans h'.localVariables⟩

theorem SameCode.handedOut (h : SameCode method method') :
    method.HandedOut ↔ method'.HandedOut := by
  unfold HandedOut mentions variableList
  rw [h.body, h.handlers, h.localVariables]

theorem SameCode.references_eq (h : SameCode method method') :
    method.references = method'.references := by
  rw [references, references, variableList, variableList, h.body, h.handlers, h.localVariables]

theorem SameCode.labelsSound (h : SameCode method method') :
    method.LabelsSound ↔ method'.LabelsSound := by
  have hreferences := h.references_eq
  constructor
  · intro hs
    exact ⟨by rw [← hreferences, ← h.body]; exact hs.resolved, h.body ▸ hs.nodup,
      h.handedOut.mp hs.handedOut⟩
  · intro hs
    exact ⟨by rw [hreferences, h.body]; exact hs.resolved, h.body ▸ hs.nodup,
      h.handedOut.mpr hs.handedOut⟩

/-- The contents of a code attribute depend on the declaration of the method only. -/
theorem SameDeclaration.readListing_eq (h : SameDeclaration method method') :
    Code.readListing owner method table skip = Code.readListing owner method' table skip := by
  have hlocals : Code.entryLocals owner method = Code.entryLocals owner method' := by
    unfold Code.entryLocals type? Context.ofMethod isStatic
    rw [h.access, h.name, h.descriptor]
  have htable :
      Code.readTable owner method table skip = Code.readTable owner method' table skip := by
    funext name info
    unfold Code.readTable
    rw [hlocals]
  unfold Code.readListing
  rw [htable]

/-- Attributes other than code leave code alone, and none changes the declaration. -/
theorem addAttribute_cases {name : String} {info : Cursor}
    (h : method.addAttribute owner table skip name info = .ok method') :
    SameDeclaration method' method ∧
      (name = "Code" ∧ (∃ listing,
        info.parse (Code.readListing owner method table skip) = .ok listing ∧
          listing.addTo method = .ok method') ∨
        name ≠ "Code" ∧ SameCode method' method) := by
  unfold addAttribute at h
  split at h
  · obtain ⟨listing, hl, ha⟩ := bind_eq_ok.mp h
    exact ⟨sameDeclaration_addTo ha, .inl ⟨rfl, listing, hl, ha⟩⟩
  · obtain ⟨exceptions, -, h⟩ := bind_eq_ok.mp h
    obtain rfl := pure_eq_ok.mp h
    exact ⟨⟨rfl, rfl, rfl⟩, .inr ⟨by decide, rfl, rfl, rfl⟩⟩
  · obtain ⟨signature, -, h⟩ := bind_eq_ok.mp h
    obtain rfl := pure_eq_ok.mp h
    exact ⟨⟨rfl, rfl, rfl⟩, .inr ⟨by decide, rfl, rfl, rfl⟩⟩
  · split at h
    · obtain rfl := pure_eq_ok.mp h
      exact ⟨⟨rfl, rfl, rfl⟩, .inr ⟨by decide, rfl, rfl, rfl⟩⟩
    · obtain rfl := pure_eq_ok.mp h
      exact ⟨⟨rfl, rfl, rfl⟩, .inr ⟨by decide, rfl, rfl, rfl⟩⟩
  · rename_i hcode _ _ _
    obtain rfl := pure_eq_ok.mp h
    exact ⟨⟨rfl, rfl, rfl⟩, .inr ⟨hcode, rfl, rfl, rfl⟩⟩

end Method

namespace RawMember

def declared (member : RawMember) : Method :=
  .declared (.ofBits .ofMethod member.access) member.name member.descriptor

/-- Contents of those of some attributes that hold the code of a method. -/
def listingsOf (owner : String) (table : Pool.Table) (skip : Skip) (method : Method)
    (attributes : List (String × Cursor)) : List Code.Listing :=
  attributes.filterMap fun (name, info) =>
    if name = "Code" then (info.parse (Code.readListing owner method table skip)).toOption
    else none

/-- Contents of the code attributes of a method. -/
def listings (owner : String) (table : Pool.Table) (skip : Skip) (member : RawMember) :
    List Code.Listing :=
  listingsOf owner table skip member.declared member.attributes

variable {declared : Method} {info : Cursor} {attributes : List (String × Cursor)}

theorem listingsOf_cons_code {listing : Code.Listing}
    (h : info.parse (Code.readListing owner declared table skip) = .ok listing) :
    listingsOf owner table skip declared (("Code", info) :: attributes) =
      listing :: listingsOf owner table skip declared attributes := by
  rw [listingsOf, List.filterMap_cons]
  simp only [if_true, h]
  rfl

theorem listingsOf_cons_other {name : String} (h : name ≠ "Code") :
    listingsOf owner table skip declared ((name, info) :: attributes) =
      listingsOf owner table skip declared attributes := by
  rw [listingsOf, List.filterMap_cons]
  simp only [if_neg h]
  rfl

end RawMember

open RawMember

/-- What becomes of a method while attributes are added: of several code attributes, the body is
that of the last one. -/
theorem Method.addAttributes_cases {attributes : List (String × Cursor)} {declared : Method}
    (hd : SameDeclaration method declared)
    (h : attributes.foldlM (fun method (name, info) =>
      method.addAttribute owner table skip name info) method = .ok method') :
    (listingsOf owner table skip declared attributes = [] → SameCode method' method) ∧
      ∀ listing ∈ (listingsOf owner table skip declared attributes).getLast?,
        Code.Ascending listing.instructions listing.length ∧ ∃ before after,
          ((listingsOf owner table skip declared attributes).length = 1 →
            SameCode before method) ∧
          listing.addTo before = .ok after ∧ SameCode method' after := by
  induction attributes generalizing method with
  | nil =>
    obtain rfl := pure_eq_ok.mp h
    exact ⟨fun _ => ⟨rfl, rfl, rfl⟩, nofun⟩
  | cons first attributes ih =>
    obtain ⟨name, info⟩ := first
    obtain ⟨next, hnext, h⟩ := bind_eq_ok.mp h
    obtain ⟨hsame, hcases⟩ := addAttribute_cases hnext
    obtain ⟨hnone, hlast⟩ := ih (hsame.trans hd) h
    rcases hcases with ⟨rfl, listing, hparse, hadd⟩ | ⟨hname, hcode⟩
    · rw [listingsOf_cons_code (hd.readListing_eq ▸ hparse)]
      refine ⟨nofun, fun other ho => ?_⟩
      cases hrest : listingsOf owner table skip declared attributes with
      | nil =>
        rw [hrest] at ho
        obtain rfl : listing = other := by simpa using ho
        obtain ⟨cursor, hrun⟩ := parse_eq_ok.mp hparse
        exact ⟨Code.ascending_readListing hrun, method, next, fun _ => ⟨rfl, rfl, rfl⟩, hadd,
          hnone hrest⟩
      | cons second rest =>
        rw [hrest, List.getLast?_cons_cons, ← hrest] at ho
        obtain ⟨ha, before, after, -, hadd, hafter⟩ := hlast other ho
        exact ⟨ha, before, after, fun hl => absurd hl (by simp), hadd, hafter⟩
    · rw [listingsOf_cons_other hname]
      refine ⟨fun hl => (hnone hl).trans hcode, fun listing hl => ?_⟩
      obtain ⟨ha, before, after, hbefore, hadd, hafter⟩ := hlast listing hl
      exact ⟨ha, before, after, fun hone => (hbefore hone).trans hcode, hadd, hafter⟩

/-- A method that is read has sound labels, unless a line or a frame is at the end of the code, or
the handlers and variables of an earlier code attribute mention labels that the last one lacks. -/
theorem Method.labelsSound_ofRaw {member : RawMember}
    (h : Method.ofRaw owner table skip member = .ok method) : method.LabelsSound ↔
      (∀ listing ∈ (member.listings owner table skip).getLast?, ¬ listing.MarksEnd) ∧
        method.HandedOut := by
  have hdeclared : SameDeclaration member.declared member.declared := ⟨rfl, rfl, rfl⟩
  obtain ⟨hnone, hsome⟩ := addAttributes_cases hdeclared h
  change (member.listings owner table skip = [] → _) at hnone
  change ∀ listing ∈ (member.listings owner table skip).getLast?, _ at hsome
  cases hl : (member.listings owner table skip).getLast? with
  | none =>
    have hsame := hnone (List.getLast?_eq_none_iff.mp hl)
    rw [hsame.labelsSound, hsame.handedOut]
    exact iff_of_true ⟨nofun, .nil, nofun⟩ ⟨nofun, nofun⟩
  | some listing =>
    obtain ⟨ha, before, after, -, hadd, hafter⟩ := hsome listing hl
    rw [hafter.labelsSound, hafter.handedOut, Code.Listing.labelsSound_addTo ha hadd]
    simp [HandedOut]

/-- Labels are handed out for all that a method mentions whose code is in one attribute. -/
theorem Method.handedOut_ofRaw {member : RawMember}
    (h : Method.ofRaw owner table skip member = .ok method)
    (hone : (member.listings owner table skip).length ≤ 1) : method.HandedOut := by
  have hdeclared : SameDeclaration member.declared member.declared := ⟨rfl, rfl, rfl⟩
  obtain ⟨hnone, hsome⟩ := addAttributes_cases hdeclared h
  change (member.listings owner table skip = [] → _) at hnone
  change ∀ listing ∈ (member.listings owner table skip).getLast?, _ at hsome
  cases hl : (member.listings owner table skip).getLast? with
  | none =>
    rw [(hnone (List.getLast?_eq_none_iff.mp hl)).handedOut]
    exact nofun
  | some listing =>
    obtain ⟨ha, before, after, hbefore, hadd, hafter⟩ := hsome listing hl
    have hpos : 0 < (member.listings owner table skip).length :=
      List.length_pos_of_mem (List.mem_of_getLast? hl)
    have hsame := hbefore (Nat.le_antisymm hone hpos)
    rw [hafter.handedOut]
    exact Code.Listing.handedOut_addTo ha hsame.handlers hsame.localVariables hadd

end ClassTree
