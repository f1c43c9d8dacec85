/-!
# Reserved names — the names and marks that a compile gives a meaning

* the names of members that are consumed or produced by a compile, `Reserved.isReserved`;
* the marks at the beginning of a string, `Reserved.afterMark?`.
-/

namespace ResourceTree.Reserved

/-- The directory that relative files are looked for in. -/
def basePath : String := "__base_path"

/-- Whether the compile is a debug compile. -/
def debug : String := "__debug"

/-- The files that a compiled tree depends on. -/
def files : String := "__files"

/-- Whether the compiled tree is to be stored compressed. -/
def compress : String := "compress"

/-- Files whose dictionaries lie under this one. -/
def import_ : String := "import"

/-- The name of a dictionary that lies under this one. -/
def template : String := "template"

/-- The class of the object that a dictionary describes. -/
def type : String := "type"

/-- Named values for this dictionary and all below it. -/
def values : String := "values"

/-- Marks the path of a file. -/
def fileMark : String := "file:"

/-- Marks the name of a resource. -/
def refMark : String := "ref:"

/-- Marks the path of a named value. -/
def valueMark : String := "value:"

/-- Whether a name is not served as a resource. -/
def isReserved (name : String) : Bool :=
  [basePath, debug, compress, files, import_, template, type, values].contains name

/-- What follows a mark. -/
def afterMark? (mark s : String) : Option String :=
  if mark.toList.isPrefixOf s.toList then some (String.ofList (s.toList.drop mark.length)) else none

end ResourceTree.Reserved
