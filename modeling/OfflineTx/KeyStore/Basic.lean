import OfflineTx.AddressMap
import OfflineTx.Key.File
import OfflineTx.KeyStore.Volume
import OfflineTx.Method

/-!
# Key stores

A key store holds the key pairs of a directory that only its owner may use. Each pair is in a file
of its own, whose name ends in `.json`. Pairs are loaded in the order of file names, and of pairs
with one address the first is kept. Pairs added later are written to a file named for the address.
-/

namespace OfflineTx

structure KeyStore where
  directory : Bytes := []
  pairs : Array KeyPair := #[]
  positions : AddressMap 127 := .empty
  errors : ErrorState := .clear

namespace KeyStore

def empty : KeyStore := {}

instance : Inhabited KeyStore := ⟨empty⟩

def size (s : KeyStore) : Nat :=
  s.pairs.size

def find? (s : KeyStore) (a : Address) : Option KeyPair :=
  (s.positions.lookup? a).bind fun i => s.pairs[i]?

/-- Whoever signs with the pair of an address, if there is one. -/
def signer? (s : KeyStore) (a : Address) : Option Signer :=
  (s.find? a).map KeyPair.signer

/-- The pairs in the order in which they were loaded or added. -/
def toList (s : KeyStore) : List KeyPair :=
  s.pairs.toList

def signers (s : KeyStore) : List Signer :=
  s.toList.map KeyPair.signer

def insert (s : KeyStore) (k : KeyPair) : KeyStore :=
  { s with positions := s.positions.insert k.address s.pairs.size, pairs := s.pairs.push k }

/-- Forgets all pairs. -/
def clear (s : KeyStore) : KeyStore :=
  { s with pairs := #[], positions := s.positions.clear }

def setDirectory (s : KeyStore) (directory : Bytes) : KeyStore :=
  { s with directory }

def extension : Bytes := ascii ".json"

/-- The file of a pair: the directory as it is given, the address as text, and the extension. -/
def keyFile (s : KeyStore) (a : Address) : Bytes :=
  s.directory ++ a.toBase58 ++ extension

/-- Whether a file is loaded: its name ends in the extension and has something before it. -/
def isKeyFile (name : Bytes) : Bool :=
  extension.length < name.length && extension.isSuffixOf name

def privateMode : Nat := 0o700

/-- A key file may be read by its owner, and by nobody written. -/
def keyFileMode : Nat := 0o400

/-- Until it is complete, it may be written as well. -/
def newFileMode : Nat := 0o600

/-- What the system does when a file is written: how many bytes each write takes, or the number it
fails with, and whether the mode can be set in the end. Writes that are not listed take all there
is. -/
structure Writing where
  writes : List (Except Int Nat) := []
  unsealed : Option Int := none

namespace Writing

/-- Nothing fails. -/
def complete : Writing := {}

/-- The bytes that are taken of a text, and the number of the write that failed. What a write does
not take is written again. -/
def taken : List (Except Int Nat) → Bytes → Bytes × Option Int
  | _, [] => ([], none)
  | [], text => (text, none)
  | .error number :: _, _ => ([], some number)
  | .ok n :: writes, text =>
    let (rest, failed) := taken writes (text.drop n)
    (text.take n ++ rest, failed)

/-- The mode and the content of the file that is left behind, and the number of what failed. A file
that is not complete keeps the mode of a new one. -/
structure Left where
  mode : Nat
  content : Bytes
  failed : Option Int

def left (w : Writing) (text : Bytes) : Left :=
  match taken w.writes text, w.unsealed with
  | (content, some number), _ => { mode := newFileMode, content, failed := some number }
  | (content, none), some number => { mode := newFileMode, content, failed := some number }
  | (content, none), none => { mode := keyFileMode, content, failed := none }

end Writing

/-- Makes the file of a pair, where no entry may be yet. The file stays even if writing it fails. -/
def writeKeyFile (v : Volume) (file : Bytes) (k : KeyPair) (writing : Writing) :
    Except Int Unit × Volume :=
  let left := writing.left (KeyFile.render k)
  match v.makeFile file left.mode left.content with
  | .error number => (.error number, v)
  | .ok v =>
    match left.failed with
    | some number => (.error number, v)
    | none => (.ok (), v)

/-- The reply of a store that reports a fault. -/
def refuse (s : KeyStore) (f : Fault) : Reply KeyStore Unit where
  answer := .error f
  after := { s with errors := .ofFault f }

/-- Makes the directory, or makes it private if it is there already. Errors of earlier calls stay
reported. -/
def create (s : KeyStore) (v : Volume) : Reply (KeyStore × Volume) Unit :=
  let answer := match v.find s.directory with
    | .ok _ => v.changeMode s.directory privateMode
    | .error _ => v.makeDirectory s.directory privateMode
  match answer with
  | .ok v => { answer := .ok (), after := (s, v) }
  | .error number =>
    let reply := s.refuse (.directoryNotCreated number)
    { answer := reply.answer, after := (reply.after, v) }

/-- The place of the directory, if it is one that only its owner may use, to read and to write, and
the owner is the user. -/
def checkDirectory (v : Volume) (directory : Bytes) : Except Fault Place :=
  match v.locate directory with
  | .error number => .error (.directoryNotFound number)
  | .ok place =>
    match v.entry? place with
    | none => .error (.directoryNotFound SystemError.noEntry)
    | some (.file ..) => .error (.directoryUnfit .notDirectory)
    | some (.directory mode standing) =>
      if standing ≠ .owner then .error (.directoryUnfit .notOwned)
      else if mode &&& 0o400 = 0 then .error (.directoryUnfit .notReadable)
      else if mode &&& 0o200 = 0 then .error (.directoryUnfit .notWritable)
      else if mode &&& 0o077 ≠ 0 then .error (.directoryUnfit .notPrivate)
      else .ok place

def loadedEntry (name : Bytes) (k : KeyPair) : Log.Entry :=
  Log.note "loaded key" [("file", .text name), ("pub_key", .base58 k.address)]

def initializedEntry (s : KeyStore) : Log.Entry :=
  Log.note "initialized key_store" [("dir", .text s.directory), ("num_keys", .number s.size)]

def addedEntry (k : KeyPair) : Log.Entry :=
  Log.note "added key" [("pub_key", .base58 k.address)]

/-- The pair in a file. -/
def readPair? (v : Volume) (file : Bytes) : Option KeyPair :=
  (v.content? file).bind KeyFile.parse?

/-- Loads files by name. A file that holds no pair ends the loading and leaves the store empty. -/
def loadFiles (v : Volume) (s : KeyStore) : List Bytes → Reply KeyStore Unit
  | [] => { answer := .ok (), after := s, log := [s.initializedEntry] }
  | name :: names =>
    let file := s.directory ++ name
    match readPair? v file with
    | none => s.clear.refuse (.keyFileInvalid file)
    | some k =>
      if (s.find? k.address).isSome then loadFiles v s names
      else
        let reply := loadFiles v (s.insert k) names
        { reply with log := loadedEntry name k :: reply.log }

/-- A directory ends in a slash. -/
def withSlash (directory : Bytes) : Bytes :=
  if directory.getLast? == some Volume.slash then directory else directory ++ [Volume.slash]

/-- The names of the key files in the directory at a place, in ascending order of bytes. -/
def keyFiles (v : Volume) (place : Place) : List Bytes :=
  ((v.names place).filter isKeyFile).mergeSort fun a b => decide (a ≤ b)

/-- Loads the key files of the directory, which from now on is named with a slash. -/
def loadDirectory (s : KeyStore) (v : Volume) : Reply KeyStore Unit :=
  let s := s.setDirectory (withSlash s.directory)
  match v.openDirectory s.directory with
  | .error number => s.refuse (.directoryNotOpened number)
  | .ok place => loadFiles v s (keyFiles v place)

/-- Loads the pairs of the directory in place of those held before. -/
def load (s : KeyStore) (v : Volume) : Reply KeyStore Unit :=
  let s := { s.clear with errors := .clear }
  match checkDirectory v s.directory with
  | .error f => s.refuse f
  | .ok _ => s.loadDirectory v

/-- Writes a pair to its file and keeps it. A pair whose address is there already is not written
again. -/
def add (s : KeyStore) (v : Volume) (k : KeyPair) (writing : Writing := .complete) :
    Reply (KeyStore × Volume) Unit :=
  let s := { s with errors := .clear }
  if (s.find? k.address).isSome then { answer := .ok (), after := (s, v) }
  else
    let file := s.keyFile k.address
    match writeKeyFile v file k writing with
    | (.error number, v) =>
      let reply := s.refuse (.keyFileNotWritten file number)
      { answer := reply.answer, after := (reply.after, v) }
    | (.ok (), v) => { answer := .ok (), after := (s.insert k, v), log := [addedEntry k] }

/-- Adds the pair of a new secret, unless none could be made. -/
def generate (s : KeyStore) (v : Volume) (secret? : Option (FixedBytes 32))
    (writing : Writing := .complete) : Reply (KeyStore × Volume) Address :=
  let s := { s with errors := .clear }
  match secret? with
  | none =>
    let f : Fault := .keyNotGenerated
    { answer := .error f, after := ((s.refuse f).after, v) }
  | some secret =>
    let k := KeyPair.ofSecret secret
    let reply := s.add v k writing
    { reply with answer := reply.answer.map fun _ => k.address }

end KeyStore

end OfflineTx
