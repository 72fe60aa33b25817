/-!
# Names of the core classes

The classes of the packages `java.lang`, `java.util` and `java.io` that are known
without looking at any file.
-/

namespace JavaDecl

/-- Classes of `java.lang`, by their simple names. -/
def langNames : List String :=
  ["String", "Object", "Throwable", "Exception", "RuntimeException", "Error",
    "Cloneable", "Comparable", "Iterable", "Runnable", "CharSequence", "Enum",
    "Record", "Class", "ClassLoader", "Thread", "ThreadLocal", "System", "Math",
    "StringBuilder", "StringBuffer", "Number", "Integer", "Long", "Float",
    "Double", "Boolean", "Character", "Short", "Byte", "Void",
    "AutoCloseable", "Override", "Deprecated", "SuppressWarnings",
    "FunctionalInterface", "SafeVarargs", "IllegalArgumentException",
    "IllegalStateException", "NullPointerException", "UnsupportedOperationException",
    "IndexOutOfBoundsException", "ClassCastException", "ArithmeticException",
    "CloneNotSupportedException", "InterruptedException"]

/-- Classes of `java.util`, by their simple names. -/
def utilNames : List String :=
  ["Collection", "List", "ArrayList", "LinkedList", "Set", "HashSet",
    "LinkedHashSet", "TreeSet", "SortedSet", "Map", "HashMap", "LinkedHashMap",
    "TreeMap", "SortedMap", "Queue", "Deque", "ArrayDeque", "Iterator",
    "Comparator", "Collections", "Arrays", "Objects", "Optional", "Date",
    "Properties", "Random", "Scanner", "UUID"]

/-- Classes of `java.io`, by their simple names. -/
def ioNames : List String :=
  ["Serializable", "Closeable", "File", "InputStream", "OutputStream", "Reader",
    "Writer", "IOException", "UncheckedIOException", "PrintStream",
    "FileNotFoundException"]

/-- The core classes by their full names. -/
def coreNames : List String :=
  langNames.map ("java.lang." ++ ·) ++ utilNames.map ("java.util." ++ ·) ++
    ioNames.map ("java.io." ++ ·) ++ ["java.util.Map$Entry"]

end JavaDecl
