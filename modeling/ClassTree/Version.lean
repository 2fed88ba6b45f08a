import ClassTree.Bytes.BigEndian

namespace ClassTree

structure Version where
  major : UInt16
  minor : UInt16
deriving DecidableEq

namespace Version

def latest : UInt16 := 65

/-- Since major version 50, code is checked against a table of frames. -/
def usesFrames (version : Version) : Bool :=
  50 ≤ version.major

def isSupported (version : Version) : Bool :=
  version.major ≤ latest

def encode (version : Version) : Bytes :=
  BigEndian.u16 version.minor ++ BigEndian.u16 version.major

end Version
end ClassTree
