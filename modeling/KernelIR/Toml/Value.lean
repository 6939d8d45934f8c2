/-!
# Values and tables

A table remembers how it came to be, since that decides what may still be added to it: a table
under a header can be defined once, a dotted key extends only tables that dotted keys made, and an
inline table is closed.
-/

namespace KernelIR.Toml

inductive TableKind where
  | explicit
  | implicit
  | dotted
  | inline
  deriving DecidableEq, Inhabited

/-- A value.  Floats and dates are checked when they are read and not kept; `ofTables` marks the
arrays that headers make. -/
inductive Value where
  | string (s : String)
  | integer (n : Int)
  | float
  | boolean (b : Bool)
  | datetime
  | array (ofTables : Bool) (items : List Value)
  | table (kind : TableKind) (entries : List (String × Value))
  deriving Inhabited

structure Table where
  kind : TableKind
  entries : List (String × Value)
  deriving Inhabited

namespace Table

def toValue (t : Table) : Value := .table t.kind t.entries

def empty (kind : TableKind) : Table := ⟨kind, []⟩

def find? (t : Table) (key : String) : Option Value := t.entries.lookup key

def put (t : Table) (key : String) (v : Value) : Table :=
  { t with entries := (t.entries.filter fun e => e.1 != key) ++ [(key, v)] }

/--
Changes the table at the end of a path.  Tables that are missing on the way are made; an array of
tables stands for its last table.  A dotted key passes no table that a header defined.
-/
def descend (dotted : Bool) (change : Table → Option Table) : List String → Table → Option Table
  | [], t => change t
  | key :: path, t =>
    match t.find? key with
    | none =>
      (descend dotted change path (empty (if dotted then .dotted else .implicit))).map
        fun child => t.put key child.toValue
    | some (.table kind entries) =>
      if kind = .inline ∨ (dotted ∧ kind = .explicit) then none
      else
        (descend dotted change path ⟨kind, entries⟩).map fun child => t.put key child.toValue
    | some (.array true items) =>
      match items.getLast? with
      | some (.table kind entries) =>
        (descend dotted change path ⟨kind, entries⟩).map fun child =>
          t.put key (.array true (items.dropLast ++ [child.toValue]))
      | _ => none
    | some _ => none

/-- Adds the value of a dotted key.  The last table on the way has to be one that dotted keys made,
unless the key has one part. -/
def addPair (path : List String) (key : String) (v : Value) : Table → Option Table :=
  descend true (fun t =>
    if (t.kind == .dotted) == path.isEmpty || (t.find? key).isSome then none
    else some (t.put key v)) path

/-- Defines the table of a header; headers of its children may have come before. -/
def define (body : Table → Option Table) (path : List String) (key : String) :
    Table → Option Table :=
  descend false (fun t =>
    match t.find? key with
    | none => (body (empty .explicit)).map fun child => t.put key child.toValue
    | some (.table .implicit entries) =>
      (body ⟨.explicit, entries⟩).map fun child => t.put key child.toValue
    | some _ => none) path

def append (body : Table → Option Table) (path : List String) (key : String) :
    Table → Option Table :=
  descend false (fun t =>
    match t.find? key with
    | none => (body (empty .explicit)).map fun child => t.put key (.array true [child.toValue])
    | some (.array true items) =>
      (body (empty .explicit)).map fun child =>
        t.put key (.array true (items ++ [child.toValue]))
    | some _ => none) path

end Table

end KernelIR.Toml
