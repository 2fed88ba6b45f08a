import ClassTree.Proofs.Bytes.Advancing
import ClassTree.Proofs.Hierarchy.Chains
import ClassTree.Proofs.Pool.Spelling
import ClassTree.Source

namespace ClassTree

theorem Text.ModifiedUtf8.length_le_encode (text : String) :
    text.length ≤ (encode text).length := by
  rw [encode, ← String.length_toList]
  induction text.toList with
  | nil => exact Nat.zero_le _
  | cons c rest ih =>
    have hc : 0 < ((units c).flatMap encodeUnit).length := by
      refine List.length_pos_of_ne_nil fun hnil => ?_
      rw [List.flatMap_eq_nil_iff] at hnil
      obtain ⟨unit, hm⟩ : ∃ unit, unit ∈ units c := by
        unfold units
        split
        · exact ⟨_, List.mem_cons_self⟩
        · exact ⟨_, List.mem_cons_self⟩
      exact encodeUnit_ne_nil unit (hnil unit hm)
    rw [List.flatMap_cons, List.length_append, List.length_cons]
    omega

open Reader

namespace Pool

def Short (text : String) : Prop :=
  text.length ≤ 2 * 0xFFFF

theorem Constant.Spells.short {piece : Bytes} {text : String}
    (h : Constant.Spells piece (.utf8 text)) : Short text := by
  cases h with
  | text hlt hdecode =>
    obtain ⟨-, -, -, hle⟩ := Text.ModifiedUtf8.exists_units_of_decode hdecode
    have := Text.ModifiedUtf8.length_le_encode text
    unfold Short
    omega
  | other h => exact absurd rfl (h text)

namespace Table

variable {table : Table} {index : Index} {found : String}

def IsShort (table : Table) : Prop :=
  ∀ text, Constant.utf8 text ∈ table.constants.toList → Short text

theorem mem_of_get {constant : Constant} (h : table.get index = .ok constant) :
    constant ∈ table.constants.toList :=
  Slots.mem_of_get? (get_eq_ok.mp h)

theorem IsShort.text (hs : table.IsShort) (h : table.text index = .ok found) : Short found := by
  obtain ⟨constant, hget, h⟩ := bind_eq_ok.mp h
  split at h
  · obtain rfl := pure_eq_ok.mp h
    exact hs _ (mem_of_get hget)
  · cases h

theorem IsShort.className (hs : table.IsShort) (h : table.className index = .ok found) :
    Short found := by
  obtain ⟨constant, -, h⟩ := bind_eq_ok.mp h
  split at h
  · exact hs.text h
  · cases h

theorem IsShort.className? (hs : table.IsShort) (h : table.className? index = .ok (some found)) :
    Short found := by
  unfold Table.className? at h
  split at h
  · cases h
  · cases hname : table.className index with
    | error fault =>
      rw [hname] at h
      cases h
    | ok name =>
      rw [hname] at h
      obtain rfl := Option.some.inj (Except.ok.inj h)
      exact hs.className hname

end Table

theorem Constants.parses_short : Parses Constants.read fun _ constants =>
    (⟨constants, #[]⟩ : Table).IsShort := by
  refine Constants.parses_read.mono ?_
  rintro taken constants ⟨count, pieces, -, hall, -⟩ text hm
  obtain ⟨piece, -, hspells⟩ := exists_of_mem_left hall.flip hm
  exact hspells.short

end Pool

theorem parses_prelude_short : Parses readPrelude fun _ found => found.2.IsShort := by
  unfold readPrelude
  refine parses_u32.bind fun _ => .unless _ ?_
  refine parses_u16.bind fun _ => parses_u16.bind fun _ => ?_
  exact .unless _ (Pool.Constants.parses_short.map fun h => h)

theorem parses_header_short (version : Version) {table : Pool.Table} (hs : table.IsShort) :
    Parses (readHeader version table) fun _ header =>
      ∀ name, header.superName = some name → Pool.Short name := by
  unfold readHeader
  refine parses_u16.bind fun _ => parses_u16.bind fun _ =>
    Parses.bind (sequential_lift _) fun _ => ?_
  refine parses_u16.bind fun {_ index} _ => ?_
  have hsuper : Parses (liftM (table.className? index) : Reader (Option String)) fun _ found =>
      ∀ name, found = some name → Pool.Short name :=
    parses_lift fun _ hfound _ hname => hs.className? (hname ▸ hfound)
  refine hsuper.bind fun {_ found} hfound => Parses.map (sequential_counted ?_) fun _ => hfound
  exact parses_u16.sequential.bind fun _ => sequential_lift _

theorem Header.short_superName {bytes : Bytes} {header : Header} {name : String}
    (h : Header.read bytes = .ok header) (hs : header.superName = some name) :
    Pool.Short name := by
  obtain ⟨cursor', h⟩ := parse_eq_ok.mp h
  have hp : Parses (readPrelude >>= fun found => readHeader found.1 found.2) fun _ header =>
      ∀ name, header.superName = some name → Pool.Short name :=
    parses_prelude_short.bind fun h => parses_header_short _ h
  obtain ⟨-, -, -, hshort⟩ := hp.consumes h
  exact hshort name hs

namespace Source

theorem short_of_infoOf {bytes : Bytes} {info : ClassInfo} {parent : String}
    (h : infoOf bytes = some info) (hp : info.superName = some parent) : Pool.Short parent := by
  unfold infoOf at h
  split at h
  · rename_i header hread
    obtain rfl := Option.some.inj h
    exact Header.short_superName hread hp
  · cases h

/-- What the class library says of a class or, if it says nothing, what the file of the class
says. -/
def infoIn (files : String → Option Bytes) (name : String) : Option ClassInfo :=
  match Ancestry.libraryInfo? name with
  | some info => some info
  | none => (files (Catalog.pathOf name)).bind infoOf

theorem exists_length_le (names : List String) : ∃ bound, ∀ name ∈ names, name.length ≤ bound := by
  induction names with
  | nil => exact ⟨0, nofun⟩
  | cons name names ih =>
    obtain ⟨bound, h⟩ := ih
    refine ⟨name.length + bound,
      List.forall_mem_cons.mpr ⟨Nat.le_add_right _ _, fun other hm => ?_⟩⟩
    exact Nat.le_trans (h other hm) (Nat.le_add_left _ _)

/-- Whatever the files are, the superclasses that they name are of bounded length. -/
theorem bounded_infoIn (files : String → Option Bytes) : Ancestry.Bounded (infoIn files) := by
  obtain ⟨bound, hbound⟩ := exists_length_le Ancestry.libraryParents
  refine ⟨2 * 0xFFFF + bound, fun {name parent info} hi hp => ?_⟩
  unfold infoIn at hi
  split at hi
  · rename_i found hfound
    obtain rfl := Option.some.inj hi
    exact Nat.le_trans (hbound parent (Ancestry.libraryInfo?_complete hfound hp))
      (Nat.le_add_left _ _)
  · obtain ⟨bytes, -, hb⟩ := Option.bind_eq_some_iff.mp hi
    exact Nat.le_trans (short_of_infoOf hb hp) (Nat.le_add_right _ _)

theorem Catalog.get?_catalog (source : Source) (path : String) :
    (catalog source).get? path = (source.get? path).map infoOf := by
  obtain ⟨files, locate⟩ := source
  simp only [catalog, Catalog.get?, Source.get?, Std.HashMap.getElem?_map]
  cases locate path with
  | none => rfl
  | some key => rfl

theorem Catalog.find?_catalogs (sources : List Source) (path : String) :
    Catalog.find? (sources.map catalog) path = (Source.find? sources path).bind infoOf := by
  have hfind : (sources.map catalog).findSome? (fun catalog => catalog.get? path) =
      (Source.find? sources path).map infoOf := by
    unfold Source.find?
    induction sources with
    | nil => rfl
    | cons source sources ih =>
      rw [List.map_cons, List.findSome?_cons, List.findSome?_cons, Catalog.get?_catalog]
      cases source.get? path with
      | none => exact ih
      | some bytes => rfl
  rw [Catalog.find?, hfind]
  cases Source.find? sources path <;> rfl

/-- What is known from several sources is what the first of them with a file says. -/
theorem info?_ancestry (sources : List Source) :
    (ancestry sources).info? = infoIn (Source.find? sources) := by
  funext name
  rw [infoIn, ← Catalog.find?_catalogs]
  rfl

end Source

end ClassTree
