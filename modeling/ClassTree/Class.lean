import ClassTree.Method
import ClassTree.Pool.Table
import ClassTree.Version

namespace ClassTree

structure Field where
  access : AccessFlags .ofField
  name : String
  descriptor : String
  signature : Option String
  /-- Initial value, for a constant. -/
  value : Option Literal
  attributes : List RawAttribute
deriving DecidableEq

structure InnerClass where
  name : String
  /-- Enclosing class, for a member. -/
  outerName : Option String
  /-- Simple name, unless the class is anonymous. -/
  innerName : Option String
  access : AccessFlags .ofInnerClass
deriving DecidableEq

structure Class where
  version : Version
  access : AccessFlags .ofClass
  name : String
  superName : Option String
  interfaces : List String
  signature : Option String
  sourceFile : Option String
  innerClasses : List InnerClass
  fields : List Field
  methods : List Method
  attributes : List RawAttribute
  /-- Constants of the class file that the class was read from. They are kept when the class is
  written, so that attributes carried along stay valid. -/
  pool : Option Pool.Table

namespace Class

def isInterface (tree : Class) : Bool :=
  tree.access.isInterface

end Class
end ClassTree
