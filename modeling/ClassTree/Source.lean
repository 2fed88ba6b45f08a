import Std.Data.HashMap
import ClassTree.Hierarchy.Library
import ClassTree.Path
import ClassTree.Reading

namespace ClassTree

abbrev Files := Std.HashMap String Bytes

structure Source where
  files : Files
  /-- The key of the file that a resource path means. -/
  locate : String → Option String

namespace Source

def ofFiles (files : Files) : Source :=
  ⟨files, some⟩

def ofDirectory (files : Files) : Source :=
  ⟨files, Path.file?⟩

def get? (source : Source) (path : String) : Option Bytes :=
  (source.locate path).bind (source.files[·]?)

def find? (sources : List Source) (path : String) : Option Bytes :=
  sources.findSome? fun source => source.get? path

def readClass (sources : List Source) (skip : Skip) (name : String) : Except Error Class :=
  let path := Name.resourcePath name
  match find? sources path with
  | some bytes => Class.read skip bytes
  | none => .error (.classNotFound path)

/-- What the start of a class file says about its class; nothing if it cannot be read. -/
def infoOf (bytes : Bytes) : Option ClassInfo :=
  match Header.read bytes with
  | .ok header => some ⟨header.superName, header.access.isInterface⟩
  | .error _ => none

structure Catalog where
  infos : Std.HashMap String (Option ClassInfo)
  locate : String → Option String

def catalog (source : Source) : Catalog :=
  ⟨source.files.map fun _ bytes => infoOf bytes, source.locate⟩

namespace Catalog

/-- What a source says about the class with a file; it may say nothing of one that it has. -/
def get? (catalog : Catalog) (path : String) : Option (Option ClassInfo) :=
  (catalog.locate path).bind (catalog.infos[·]?)

def parents (catalog : Catalog) : List String :=
  catalog.infos.toList.filterMap fun entry => entry.2.bind ClassInfo.superName

def find? (catalogs : List Catalog) (path : String) : Option ClassInfo :=
  (catalogs.findSome? fun catalog => catalog.get? path).join

theorem mem_parents_of_find? {catalogs : List Catalog} {path parent : String} {info : ClassInfo}
    (h : find? catalogs path = some info) (hp : info.superName = some parent) :
    parent ∈ catalogs.flatMap parents := by
  rw [find?, Option.join_eq_some_iff] at h
  obtain ⟨catalog, hm, hg⟩ := List.exists_of_findSome?_eq_some h
  obtain ⟨key, _, hk⟩ := Option.bind_eq_some_iff.mp hg
  exact List.mem_flatMap.mpr ⟨catalog, hm, List.mem_filterMap.mpr
    ⟨_, Std.HashMap.mem_toList_iff_getElem?_eq_some.mpr hk, hp⟩⟩

/-- Path at which the class file of a class named with slashes is looked for. -/
def pathOf (name : String) : String :=
  Name.resourcePath (Name.dotted name)

/-- The class library, and the classes with a file. -/
def ancestry (catalogs : List Catalog) : Ancestry where
  info? name :=
    match Ancestry.libraryInfo? name with
    | some info => some info
    | none => find? catalogs (pathOf name)
  parents := Ancestry.libraryParents ++ catalogs.flatMap parents
  complete := by
    intro name parent info h hp
    cases hl : Ancestry.libraryInfo? name with
    | some found =>
      simp only [hl, Option.some.injEq] at h
      subst h
      exact List.mem_append_left _ (Ancestry.libraryInfo?_complete hl hp)
    | none =>
      simp only [hl] at h
      exact List.mem_append_right _ (mem_parents_of_find? h hp)

end Catalog

/-- The class library, and the classes of the sources. -/
def ancestry (sources : List Source) : Ancestry :=
  Catalog.ancestry (sources.map catalog)

def hierarchy (sources : List Source) : Hierarchy :=
  (ancestry sources).hierarchy

end Source
end ClassTree
