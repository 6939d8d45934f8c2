import KernelIR.OrderedMap

/-!
# Function attributes

A few flags for the inliner, and free strings by key that carry annotations for the backend.
-/

namespace KernelIR

structure AttributeFlags where
  noInline : Bool := false
  alwaysInline : Bool := false
  noUnwind : Bool := false
  deriving DecidableEq, Inhabited

namespace AttributeFlags

def isEmpty (f : AttributeFlags) : Bool :=
  !f.noInline && !f.alwaysInline && !f.noUnwind

def includes (f g : AttributeFlags) : Bool :=
  (!g.noInline || f.noInline) && (!g.alwaysInline || f.alwaysInline) &&
    (!g.noUnwind || f.noUnwind)

def union (f g : AttributeFlags) : AttributeFlags where
  noInline := f.noInline || g.noInline
  alwaysInline := f.alwaysInline || g.alwaysInline
  noUnwind := f.noUnwind || g.noUnwind

def diff (f g : AttributeFlags) : AttributeFlags where
  noInline := f.noInline && !g.noInline
  alwaysInline := f.alwaysInline && !g.alwaysInline
  noUnwind := f.noUnwind && !g.noUnwind

def words (f : AttributeFlags) : List String :=
  (if f.noInline then ["noinline"] else []) ++
    (if f.alwaysInline then ["alwaysinline"] else []) ++
      (if f.noUnwind then ["nounwind"] else [])

end AttributeFlags

structure Attributes where
  flags : AttributeFlags := {}
  strings : OrderedMap String String := .empty
  deriving DecidableEq, Inhabited

namespace Attributes

def insertFlags (a : Attributes) (f : AttributeFlags) : Attributes :=
  { a with flags := a.flags.union f }

def eraseFlags (a : Attributes) (f : AttributeFlags) : Attributes :=
  { a with flags := a.flags.diff f }

def contains (a : Attributes) (key : String) : Bool := a.strings.contains key

def get? (a : Attributes) (key : String) : Option String := a.strings.find? key

def insert (a : Attributes) (key value : String) : Attributes :=
  { a with strings := a.strings.insert key value }

def erase (a : Attributes) (key : String) : Attributes :=
  { a with strings := a.strings.erase key }

def withStem (a : Attributes) (stem : String) : List (String × String) :=
  a.strings.entries.filter fun e => e.1.startsWith stem

def isEmpty (a : Attributes) : Bool := a.flags.isEmpty && a.strings.isEmpty

/-- The value of a string attribute is written only when it is not empty. -/
def stringText (key value : String) : String :=
  if value.isEmpty then s!"\"{key}\"" else s!"\"{key}\"=\"{value}\""

def text (a : Attributes) : String :=
  " ".intercalate (a.flags.words ++ a.strings.entries.map fun e => stringText e.1 e.2)

theorem get?_insert_of_ne (a : Attributes) {key key' : String} (h : key ≠ key') (value : String) :
    (a.insert key' value).get? key = a.get? key :=
  OrderedMap.find?_insert_of_ne _ h value

theorem contains_insert_self (a : Attributes) (key value : String) :
    (a.insert key value).contains key = true := by
  simp [contains, insert, OrderedMap.contains]

theorem contains_insert (a : Attributes) {key key' value : String}
    (h : a.contains key = true) : (a.insert key' value).contains key = true := by
  by_cases heq : key = key'
  · subst heq
    exact a.contains_insert_self key value
  · simpa [contains, insert, OrderedMap.contains, OrderedMap.find?_insert_of_ne _ heq] using h

end Attributes

end KernelIR
