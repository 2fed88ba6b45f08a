import ClassTree.Hierarchy.Basic

namespace ClassTree
namespace Ancestry

def libraryClasses : List (String × String) :=
  [("java/lang/String", "java/lang/Object"),
   ("java/lang/Class", "java/lang/Object"),
   ("java/lang/Boolean", "java/lang/Object"),
   ("java/lang/Character", "java/lang/Object"),
   ("java/lang/Number", "java/lang/Object"),
   ("java/lang/Byte", "java/lang/Number"),
   ("java/lang/Short", "java/lang/Number"),
   ("java/lang/Integer", "java/lang/Number"),
   ("java/lang/Long", "java/lang/Number"),
   ("java/lang/Float", "java/lang/Number"),
   ("java/lang/Double", "java/lang/Number"),
   ("java/lang/Math", "java/lang/Object"),
   ("java/lang/System", "java/lang/Object"),
   ("java/lang/Thread", "java/lang/Object"),
   ("java/lang/Enum", "java/lang/Object"),
   ("java/lang/Record", "java/lang/Object"),
   ("java/lang/AbstractStringBuilder", "java/lang/Object"),
   ("java/lang/StringBuilder", "java/lang/AbstractStringBuilder"),
   ("java/lang/StringBuffer", "java/lang/AbstractStringBuilder"),
   ("java/math/BigInteger", "java/lang/Number"),
   ("java/math/BigDecimal", "java/lang/Number"),
   ("java/lang/Throwable", "java/lang/Object"),
   ("java/lang/Exception", "java/lang/Throwable"),
   ("java/lang/Error", "java/lang/Throwable"),
   ("java/lang/RuntimeException", "java/lang/Exception"),
   ("java/lang/ArithmeticException", "java/lang/RuntimeException"),
   ("java/lang/ArrayStoreException", "java/lang/RuntimeException"),
   ("java/lang/ClassCastException", "java/lang/RuntimeException"),
   ("java/lang/IllegalArgumentException", "java/lang/RuntimeException"),
   ("java/lang/NumberFormatException", "java/lang/IllegalArgumentException"),
   ("java/lang/IllegalStateException", "java/lang/RuntimeException"),
   ("java/lang/IllegalMonitorStateException", "java/lang/RuntimeException"),
   ("java/lang/IndexOutOfBoundsException", "java/lang/RuntimeException"),
   ("java/lang/ArrayIndexOutOfBoundsException", "java/lang/IndexOutOfBoundsException"),
   ("java/lang/StringIndexOutOfBoundsException", "java/lang/IndexOutOfBoundsException"),
   ("java/lang/NegativeArraySizeException", "java/lang/RuntimeException"),
   ("java/lang/NullPointerException", "java/lang/RuntimeException"),
   ("java/lang/SecurityException", "java/lang/RuntimeException"),
   ("java/lang/UnsupportedOperationException", "java/lang/RuntimeException"),
   ("java/lang/CloneNotSupportedException", "java/lang/Exception"),
   ("java/lang/InterruptedException", "java/lang/Exception"),
   ("java/lang/ReflectiveOperationException", "java/lang/Exception"),
   ("java/lang/ClassNotFoundException", "java/lang/ReflectiveOperationException"),
   ("java/lang/IllegalAccessException", "java/lang/ReflectiveOperationException"),
   ("java/lang/InstantiationException", "java/lang/ReflectiveOperationException"),
   ("java/lang/NoSuchFieldException", "java/lang/ReflectiveOperationException"),
   ("java/lang/NoSuchMethodException", "java/lang/ReflectiveOperationException"),
   ("java/lang/reflect/InvocationTargetException", "java/lang/ReflectiveOperationException"),
   ("java/lang/AssertionError", "java/lang/Error"),
   ("java/lang/LinkageError", "java/lang/Error"),
   ("java/lang/NoClassDefFoundError", "java/lang/LinkageError"),
   ("java/lang/ExceptionInInitializerError", "java/lang/LinkageError"),
   ("java/lang/VirtualMachineError", "java/lang/Error"),
   ("java/lang/OutOfMemoryError", "java/lang/VirtualMachineError"),
   ("java/lang/StackOverflowError", "java/lang/VirtualMachineError"),
   ("java/io/IOException", "java/lang/Exception"),
   ("java/io/EOFException", "java/io/IOException"),
   ("java/io/FileNotFoundException", "java/io/IOException"),
   ("java/io/UnsupportedEncodingException", "java/io/IOException"),
   ("java/io/UncheckedIOException", "java/lang/RuntimeException"),
   ("java/util/NoSuchElementException", "java/lang/RuntimeException"),
   ("java/util/ConcurrentModificationException", "java/lang/RuntimeException"),
   ("java/util/concurrent/ExecutionException", "java/lang/Exception"),
   ("java/util/concurrent/TimeoutException", "java/lang/Exception"),
   ("java/util/concurrent/CancellationException", "java/lang/IllegalStateException"),
   ("java/io/InputStream", "java/lang/Object"),
   ("java/io/OutputStream", "java/lang/Object"),
   ("java/io/Reader", "java/lang/Object"),
   ("java/io/Writer", "java/lang/Object"),
   ("java/util/AbstractCollection", "java/lang/Object"),
   ("java/util/AbstractList", "java/util/AbstractCollection"),
   ("java/util/AbstractSequentialList", "java/util/AbstractList"),
   ("java/util/ArrayList", "java/util/AbstractList"),
   ("java/util/LinkedList", "java/util/AbstractSequentialList"),
   ("java/util/Vector", "java/util/AbstractList"),
   ("java/util/Stack", "java/util/Vector"),
   ("java/util/AbstractSet", "java/util/AbstractCollection"),
   ("java/util/HashSet", "java/util/AbstractSet"),
   ("java/util/LinkedHashSet", "java/util/HashSet"),
   ("java/util/TreeSet", "java/util/AbstractSet"),
   ("java/util/EnumSet", "java/util/AbstractSet"),
   ("java/util/AbstractQueue", "java/util/AbstractCollection"),
   ("java/util/PriorityQueue", "java/util/AbstractQueue"),
   ("java/util/ArrayDeque", "java/util/AbstractCollection"),
   ("java/util/AbstractMap", "java/lang/Object"),
   ("java/util/HashMap", "java/util/AbstractMap"),
   ("java/util/LinkedHashMap", "java/util/HashMap"),
   ("java/util/TreeMap", "java/util/AbstractMap"),
   ("java/util/EnumMap", "java/util/AbstractMap"),
   ("java/util/IdentityHashMap", "java/util/AbstractMap"),
   ("java/util/WeakHashMap", "java/util/AbstractMap"),
   ("java/util/concurrent/ConcurrentHashMap", "java/util/AbstractMap")]

def libraryInterfaces : List String :=
  ["java/lang/AutoCloseable",
   "java/lang/CharSequence",
   "java/lang/Cloneable",
   "java/lang/Comparable",
   "java/lang/Iterable",
   "java/lang/Runnable",
   "java/io/Closeable",
   "java/io/Serializable",
   "java/util/Collection",
   "java/util/Deque",
   "java/util/Iterator",
   "java/util/List",
   "java/util/Map",
   "java/util/Queue",
   "java/util/Set",
   "java/util/SortedMap",
   "java/util/SortedSet",
   "java/util/concurrent/Callable",
   "java/util/function/Function",
   "java/util/function/Supplier",
   "java/util/function/Consumer",
   "java/util/function/Predicate"]

def libraryInfo? (name : String) : Option ClassInfo :=
  if name = Name.object then some ⟨none, false⟩
  else match libraryClasses.lookup name with
    | some parent => some ⟨some parent, false⟩
    | none => if libraryInterfaces.contains name then some ⟨some Name.object, true⟩ else none

def libraryParents : List String :=
  Name.object :: libraryClasses.map Prod.snd

theorem snd_mem_of_lookup {name parent : String} :
    {table : List (String × String)} → table.lookup name = some parent →
      parent ∈ table.map Prod.snd
  | (key, value) :: rest, h => by
    rw [List.lookup_cons] at h
    split at h
    · simp_all
    · exact List.mem_cons_of_mem _ (snd_mem_of_lookup h)

theorem libraryInfo?_complete {name parent : String} {info : ClassInfo}
    (h : libraryInfo? name = some info) (hp : info.superName = some parent) :
    parent ∈ libraryParents := by
  unfold libraryInfo? at h
  unfold libraryParents
  split at h
  · simp_all
    subst h
    simp at hp
  · split at h
    · rename_i found hl
      have := snd_mem_of_lookup hl
      simp_all
      subst h
      simp at hp
      subst hp
      exact Or.inr this
    · split at h
      · simp at h
        subst h
        simp_all
      · simp at h

/-- What is known if nothing else is. -/
def library : Ancestry :=
  ⟨libraryInfo?, libraryParents, libraryInfo?_complete⟩

end Ancestry

/-- The hierarchy of the class library alone. -/
def Hierarchy.library : Hierarchy :=
  Ancestry.library.hierarchy

@[simp] theorem Hierarchy.library_commonSuperclass :
    library.commonSuperclass = Ancestry.library.commonSuperclass :=
  rfl

end ClassTree
