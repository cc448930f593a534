import LiveTemplate.Change
import LiveTemplate.Expr
import LiveTemplate.Number

/-!
What an expression reads. `user.name` reads the field `name` of the binding `user`; a method call
reads its receiver; a computed key reads the whole of what it looks into. Names bound by a loop, a
slot entry or a parameter are local and have no identity across renders.
-/

namespace LiveTemplate

set_option autoImplicit false

/-- A read of a binding, followed by a path of fields. -/
structure Read where
  key : String
  path : List String
deriving DecidableEq, Repr, Inhabited

/-- The text by which reads are told apart: key and path with a null character between. -/
def Read.id (r : Read) : String := String.intercalate "\x00" (r.key :: r.path)

/-- What is read, each read and each local once, in the order of first occurrence. -/
structure Reads where
  keys : List Read
  /-- The record of all bindings is read. -/
  all : Bool
  locals : List String
deriving DecidableEq, Repr, Inhabited

/-- The names that are not bindings where an expression stands. -/
structure NameScope where
  locals : List String
  helpers : List String
deriving Repr, Inhabited

namespace Reads

def empty : Reads := ⟨[], false, []⟩

def addKey (keys : List Read) (r : Read) : List Read :=
  if keys.any fun k => k.id = r.id then keys else keys ++ [r]

def addLocal (locals : List String) (name : String) : List String :=
  if name ∈ locals then locals else locals ++ [name]

def merge (a b : Reads) : Reads where
  keys := b.keys.foldl addKey a.keys
  all := a.all || b.all
  locals := b.locals.foldl addLocal a.locals

def mergeAll (all : List Reads) : Reads := all.foldl merge empty

/-- Without the locals that a block binds itself. -/
def without (reads : Reads) (names : List String) : Reads :=
  { reads with locals := reads.locals.filter fun n => n ∉ names }

/-- The read of a name with a path. The name `assigns` stands for the record of all bindings. -/
def ofName (scope : NameScope) (name : String) (path : List String) : Reads :=
  if name ∈ scope.locals then { empty with locals := [name] }
  else if name = "assigns" then
    match path with
    | [] => { empty with all := true }
    | key :: rest => { empty with keys := [⟨key, rest⟩] }
  else if name ∈ scope.helpers then empty
  else { empty with keys := [⟨name, path⟩] }

/-- Whether what is read may have changed. Reads of locals always may. -/
def isAffected (reads : Reads) (changed : Option ChangedSet) : Bool :=
  match changed with
  | .none => true
  | some set =>
    !reads.locals.isEmpty ||
      if reads.all then !set.isEmpty
      else reads.keys.any fun r => ChangedSet.reaches changed r.key r.path

end Reads

/-- The field that a literal key names. -/
def Literal.fieldName? : Literal → Option String
  | text s => some s
  | number x => some (Number.text x)
  | _ => none

/-- A name followed by fields whose names are known, as the name and the path. -/
def Expr.chain? : Expr → Option (String × List String)
  | .name n _ => some (n, [])
  | .member target field _ _ => do
    let (root, path) ← chain? target
    some (root, path ++ [field])
  | .keyed target (.literal value _) _ _ => do
    let field ← value.fieldName?
    let (root, path) ← chain? target
    some (root, path ++ [field])
  | _ => none

/-- The parameters of a function that hide no local around it. -/
def NameScope.fresh (scope : NameScope) (params : List Pattern) : List String :=
  (Pattern.allNames params).filter fun n => n ∉ scope.locals

def NameScope.bind (scope : NameScope) (names : List String) : NameScope :=
  { scope with locals := scope.locals ++ names }

mutual

/-- What an expression reads. -/
def Expr.reads (scope : NameScope) : Expr → Reads
  | .literal _ _ => Reads.empty
  | .template _ parts _ => Expr.partReads scope parts
  | .name n _ => Reads.ofName scope n []
  | .member target field opt span =>
    match Expr.chain? (.member target field opt span) with
    | some (root, path) => Reads.ofName scope root path
    | none => Expr.reads scope target
  | .keyed target key opt span =>
    match Expr.chain? (.keyed target key opt span) with
    | some (root, path) => Reads.ofName scope root path
    | none => (Expr.reads scope target).merge (Expr.reads scope key)
  | .call (.member target _ _ _) args _ _ =>
    (Expr.reads scope target).merge (Expr.listReads scope args)
  | .call (.keyed target key _ _) args _ _ =>
    ((Expr.reads scope target).merge (Expr.reads scope key)).merge (Expr.listReads scope args)
  | .call callee args _ _ => (Expr.reads scope callee).merge (Expr.listReads scope args)
  | .unary _ e _ => Expr.reads scope e
  | .binary _ l r _ => (Expr.reads scope l).merge (Expr.reads scope r)
  | .conditional c y n _ =>
    ((Expr.reads scope c).merge (Expr.reads scope y)).merge (Expr.reads scope n)
  | .array es _ => Expr.listReads scope es
  | .object fields _ => Expr.fieldReads scope fields
  | .arrow params body _ =>
    let fresh := scope.fresh params
    (Expr.paramReads scope params).merge ((Expr.reads (scope.bind fresh) body).without fresh)

def Expr.listReads (scope : NameScope) : List Expr → Reads
  | [] => Reads.empty
  | e :: rest => (Expr.reads scope e).merge (Expr.listReads scope rest)

def Expr.partReads (scope : NameScope) : List (Expr × String) → Reads
  | [] => Reads.empty
  | (e, _) :: rest => (Expr.reads scope e).merge (Expr.partReads scope rest)

def Expr.fieldReads (scope : NameScope) : List (String × Expr) → Reads
  | [] => Reads.empty
  | (_, e) :: rest => (Expr.reads scope e).merge (Expr.fieldReads scope rest)

/-- What the default values of parameters read; each parameter is local to those after it. -/
def Expr.paramReads (scope : NameScope) : List Pattern → Reads
  | [] => Reads.empty
  | p :: rest =>
    (Pattern.reads scope p).merge (Expr.paramReads (scope.bind p.boundNames) rest)

/-- What the default values of a pattern read. -/
def Pattern.reads (scope : NameScope) : Pattern → Reads
  | .name _ _ => Reads.empty
  | .array elements _ => Pattern.elementReads scope elements
  | .object properties _ => Pattern.propertyReads scope properties
  | .fallback target value _ => (Expr.reads scope value).merge (Pattern.reads scope target)

def Pattern.elementReads (scope : NameScope) : List (Option Pattern) → Reads
  | [] => Reads.empty
  | none :: rest => Pattern.elementReads scope rest
  | some p :: rest => (Pattern.reads scope p).merge (Pattern.elementReads scope rest)

def Pattern.propertyReads (scope : NameScope) : List (String × Pattern) → Reads
  | [] => Reads.empty
  | (_, p) :: rest => (Pattern.reads scope p).merge (Pattern.propertyReads scope rest)

end

end LiveTemplate
