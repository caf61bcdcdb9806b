import OfflineTx.Fault.System

/-!
# Volumes

A volume is a tree of files and directories, kept as a list of entries with their places, as one
user sees it. A path is read from the top of the volume, name by name, up to its first zero byte.
What the permissions do not allow and what cannot be done is refused with a system error number.
-/

namespace OfflineTx

/-- The names on the way from the top of the volume. -/
abbrev Place := List Bytes

/-- Which three bits of a mode are those of the user. -/
inductive Standing
  | owner
  | group
  | other
deriving DecidableEq

inductive Access
  | read
  | write
  | search
deriving DecidableEq

/-- The bit of a mode that allows the access. -/
def Access.bit : Standing → Access → Nat
  | .owner, .read => 0o400
  | .owner, .write => 0o200
  | .owner, .search => 0o100
  | .group, .read => 0o040
  | .group, .write => 0o020
  | .group, .search => 0o010
  | .other, .read => 0o004
  | .other, .write => 0o002
  | .other, .search => 0o001

inductive Entry
  | file (mode : Nat) (content : Bytes) (standing : Standing := .owner)
  | directory (mode : Nat) (standing : Standing := .owner)
deriving DecidableEq

namespace Entry

def mode : Entry → Nat
  | file mode _ _ => mode
  | directory mode _ => mode

def standing : Entry → Standing
  | file _ _ standing => standing
  | directory _ standing => standing

def withMode (mode : Nat) : Entry → Entry
  | file _ content standing => file mode content standing
  | directory _ standing => directory mode standing

def isDirectory : Entry → Bool
  | file .. => false
  | directory .. => true

/-- Whether the mode allows the access. -/
def grants (access : Access) (e : Entry) : Bool :=
  e.mode &&& access.bit e.standing != 0

end Entry

/-- A privileged user may do what modes do not allow. -/
structure Volume where
  entries : List (Place × Entry) := []
  privileged : Bool := false

namespace Volume

def empty : Volume := {}

/-- The top of the volume is a directory without an entry. -/
def entry? (v : Volume) (place : Place) : Option Entry :=
  if place.isEmpty then some (.directory 0o755)
  else (v.entries.find? (·.1 == place)).map Prod.snd

def isDirectory (v : Volume) (place : Place) : Bool :=
  ((v.entry? place).map Entry.isDirectory).getD false

def allows (v : Volume) (access : Access) (e : Entry) : Bool :=
  v.privileged || e.grants access

def allowsAt (v : Volume) (access : Access) (place : Place) : Bool :=
  ((v.entry? place).map (v.allows access)).getD false

def slash : UInt8 := 47

/-- The texts between the slashes of a path. -/
def pieces : Bytes → List Bytes
  | [] => [[]]
  | b :: path =>
    if b == slash then [] :: pieces path
    else match pieces path with
      | [] => [[b]]
      | name :: names => (b :: name) :: names

/-- The names in a path: what is between its slashes, unless it is empty. -/
def splitNames (path : Bytes) : List Bytes :=
  (pieces path).filter (!·.isEmpty)

def maxName : Nat := 255

def maxPath : Nat := 4096

/-- The place reached by a row of names from a place that exists. One point stays, and two points
go up. A name is looked for only in a directory that may be searched. -/
def walk (v : Volume) : Place → List Bytes → Except Int Place
  | place, [] => .ok place
  | place, name :: names =>
    if !v.isDirectory place then .error SystemError.notDirectory
    else if !v.allowsAt .search place then .error SystemError.denied
    else if name == ascii "." then walk v place names
    else if name == ascii ".." then walk v place.dropLast names
    else if maxName < name.length then .error SystemError.nameTooLong
    else if (v.entry? (place ++ [name])).isNone then .error SystemError.noEntry
    else walk v (place ++ [name]) names

/-- The names of a path, and whether it ends in a slash. -/
def parse (path : Bytes) : Except Int (List Bytes × Bool) :=
  let path := Bytes.upToZero path
  if path.isEmpty then .error SystemError.noEntry
  else if maxPath ≤ path.length then .error SystemError.nameTooLong
  else .ok (splitNames path, path.getLast? == some slash)

/-- Where the entry of a path is. Only a directory may be followed by a slash. -/
def locate (v : Volume) (path : Bytes) : Except Int Place := do
  let (names, slashed) ← parse path
  let place ← v.walk [] names
  if slashed && !v.isDirectory place then throw SystemError.notDirectory
  pure place

/-- The entry of a path. -/
def find (v : Volume) (path : Bytes) : Except Int Entry := do
  let place ← v.locate path
  match v.entry? place with
  | some e => pure e
  | none => throw SystemError.noEntry

/-- The directory and the name of a new entry, and whether a slash follows the name. What is named
by no name, by one point or by two is there already. -/
def target (v : Volume) (path : Bytes) : Except Int (Place × Bytes × Bool) := do
  let (names, slashed) ← parse path
  let directory ← v.walk [] names.dropLast
  if !v.isDirectory directory then throw SystemError.notDirectory
  if !v.allowsAt .search directory then throw SystemError.denied
  match names.getLast? with
  | none => throw SystemError.entryExists
  | some name =>
    if name == ascii "." || name == ascii ".." then throw SystemError.entryExists
    pure (directory, name, slashed)

/-- The place of a name in a directory: nothing may be there yet, and the directory may be
written. -/
def vacancy (v : Volume) (directory : Place) (name : Bytes) : Except Int Place :=
  if maxName < name.length then .error SystemError.nameTooLong
  else if (v.entry? (directory ++ [name])).isSome then .error SystemError.entryExists
  else if !v.allowsAt .write directory then .error SystemError.denied
  else .ok (directory ++ [name])

def put (v : Volume) (place : Place) (e : Entry) : Volume :=
  { v with entries := v.entries ++ [(place, e)] }

def makeDirectory (v : Volume) (path : Bytes) (mode : Nat) : Except Int Volume := do
  let (directory, name, _) ← v.target path
  pure (v.put (← v.vacancy directory name) (.directory mode))

/-- Makes a file where there is no entry yet. No file is followed by a slash, whatever is there. -/
def makeFile (v : Volume) (path : Bytes) (mode : Nat) (content : Bytes) : Except Int Volume := do
  let (directory, name, slashed) ← v.target path
  if slashed then throw SystemError.isDirectory
  pure (v.put (← v.vacancy directory name) (.file mode content))

def update (v : Volume) (place : Place) (f : Entry → Entry) : Volume :=
  { v with entries := v.entries.map fun (p, e) => if p == place then (p, f e) else (p, e) }

/-- Only its owner gives an entry another mode. -/
def changeMode (v : Volume) (path : Bytes) (mode : Nat) : Except Int Volume := do
  let place ← v.locate path
  let owned := ((v.entry? place).map (·.standing == .owner)).getD false
  if !v.privileged && !owned then throw SystemError.notPermitted
  pure (v.update place (.withMode mode))

/-- Removes a file. -/
def remove (v : Volume) (path : Bytes) : Except Int Volume := do
  let place ← v.locate path
  if !v.allowsAt .write place.dropLast then throw SystemError.denied
  if v.isDirectory place then throw SystemError.isDirectory
  pure { v with entries := v.entries.filter (·.1 != place) }

/-- The content of a file that may be read and is not empty. -/
def content? (v : Volume) (path : Bytes) : Option Bytes :=
  match v.find path with
  | .ok (.file mode content standing) =>
    if v.allows .read (.file mode content standing) && !content.isEmpty then some content else none
  | _ => none

/-- The place of a directory whose names may be read. -/
def openDirectory (v : Volume) (path : Bytes) : Except Int Place := do
  let place ← v.locate path
  if !v.isDirectory place then throw SystemError.notDirectory
  if !v.allowsAt .read place then throw SystemError.denied
  pure place

/-- The names in the directory at a place, in the order in which the volume has them. -/
def names (v : Volume) (place : Place) : List Bytes :=
  let inside := v.entries.filter fun (p, _) => !p.isEmpty && p.dropLast == place
  inside.filterMap (·.1.getLast?)

/-- The entries below a place, each before those below it, in ascending order of bytes. -/
def below (v : Volume) (place : Place) : List (Place × Entry) :=
  let inside := v.entries.filter fun (p, _) => place.isPrefixOf p && place.length < p.length
  (inside.map fun (p, e) => (p.drop place.length, e)).mergeSort fun a b => decide (a.1 ≤ b.1)

end Volume

end OfflineTx
