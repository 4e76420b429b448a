import Mathlib
import Dacha.Protobuf.Wire
import Dacha.SSTable.Version

/-!
# The manifest's version edits (`db/version_edit.rs`, `encoding.rs`)

A `VersionEdit` is written to the manifest as one record of tagged fields: a varint tag, then the
field's value. `serialize` writes the optional fields first, then the deleted files, then the new
files, each with the tag `NewFile2` when it has a sequence range and `NewFile` otherwise. `read`
takes the fields one after another until the record is used up.

| here | there |
| --- | --- |
| `Manifest.NewFileEntry`, `Manifest.VersionEdit` | `NewFileEntry`, `VersionEdit` (`version_edit.rs:43-96`) |
| `Tag` | `Tag` (`:16-41`) |
| `Manifest.parseVarint`, `parseSlice`, `parseString`, `serializeSlice`, `serializeString` | `encoding.rs:6-27` over `wire::parse_varint`, `serialize_varint` |
| `Manifest.readField`, `readLoop`, `read` | `VersionEdit::read` (`:101-207`) |
| `Manifest.VersionEdit.serialize` | `VersionEdit::serialize` (`:210-287`) |

These are the edits as the manifest holds them: a key is the bytes of the encoded internal key,
where the rest of the model keeps `NewFileEntry` keys parsed, and the comparator name is the one
field nothing else reads. `read` is given the record `RecordReader::read` returned; its loop has
the record's length as fuel, since every field starts with a tag of at least one byte. Rust's
errors are kept by what they carry: a wire error, an unknown tag value, a tag `read` does not
support, or an error message.

Both sides refuse an edit that touches one file number twice, but not the same ways: `serialize`
checks every new file, while `read` checks a file created with `NewFile` and never one created
with `NewFile2`, which is every file the compaction thread writes.
-/

namespace Dacha.SSTable

inductive Tag
  | Comparator
  | LogNumber
  | NextFileNumber
  | LastSequence
  | CompactPointer
  | DeletedFile
  | NewFile
  | PrevLogNumber
  | MinLogNumberToKeep
  | NewFile2
  | NewFile3
  | NewFile4
  | ColumnFamily
  | ColumnFamilyAdd
  | ColumnFamilyDrop
  | MaxColumnFamily
  | InAtomicGroup
  | CompactionWaterline
  deriving DecidableEq, Repr

namespace Tag

def toValue : Tag → Nat
  | .Comparator => 1
  | .LogNumber => 2
  | .NextFileNumber => 3
  | .LastSequence => 4
  | .CompactPointer => 5
  | .DeletedFile => 6
  | .NewFile => 7
  | .PrevLogNumber => 9
  | .MinLogNumberToKeep => 10
  | .NewFile2 => 100
  | .NewFile3 => 102
  | .NewFile4 => 103
  | .ColumnFamily => 200
  | .ColumnFamilyAdd => 201
  | .ColumnFamilyDrop => 202
  | .MaxColumnFamily => 203
  | .InAtomicGroup => 300
  | .CompactionWaterline => 800

def all : List Tag :=
  [.Comparator, .LogNumber, .NextFileNumber, .LastSequence, .CompactPointer, .DeletedFile, .NewFile,
    .PrevLogNumber, .MinLogNumberToKeep, .NewFile2, .NewFile3, .NewFile4, .ColumnFamily,
    .ColumnFamilyAdd, .ColumnFamilyDrop, .MaxColumnFamily, .InAtomicGroup, .CompactionWaterline]

/-- `Tag::from_value`: the tag with this value, if there is one. -/
def fromValue (v : Nat) : Option Tag := all.find? (·.toValue = v)

@[simp]
theorem fromValue_toValue (t : Tag) : fromValue t.toValue = some t := by
  cases t <;> rfl

end Tag

namespace Manifest

structure NewFileEntry where
  level : Nat
  number : Nat
  fileSize : Nat
  smallestKey : List UInt8
  largestKey : List UInt8
  sequenceRange : Option (Nat × Nat)
  deriving DecidableEq, Repr

structure VersionEdit where
  comparator : Option String := none
  logNumber : Option Nat := none
  prevLogNumber : Option Nat := none
  lastSequence : Option Nat := none
  newFiles : List NewFileEntry := []
  deletedFiles : List DeletedFileEntry := []
  nextFileNumber : Option Nat := none
  compactionWaterline : Option Nat := none
  deriving DecidableEq, Repr

inductive EditError
  | wire (e : Protobuf.WireError)
  | unknownTag (value : Nat)
  | unsupportedTag (tag : Tag)
  | msg (text : String)
  deriving DecidableEq, Repr

/-! ## Fields -/

def parseVarint (input : List UInt8) : Except EditError (Nat × List UInt8) :=
  match Protobuf.parseVarint input with
  | .ok (v, rest) => .ok (v.toNat, rest)
  | .error e => .error (.wire e)

def serializeVarint (v : Nat) : List UInt8 := Protobuf.serializeVarint (BitVec.ofNat 64 v)

/-- `parse_slice`: a varint length, then that many bytes. -/
def parseSlice (input : List UInt8) : Except EditError (List UInt8 × List UInt8) := do
  let (len, input) ← parseVarint input
  if input.length < len then throw (.msg "Slice out of range")
  pure (input.take len, input.drop len)

def serializeSlice (data : List UInt8) : List UInt8 := serializeVarint data.length ++ data

/-- `parse_string`: a slice that is UTF-8. -/
def parseString (input : List UInt8) : Except EditError (String × List UInt8) := do
  let (data, input) ← parseSlice input
  match String.fromUTF8? ⟨data.toArray⟩ with
  | some value => pure (value, input)
  | none => throw (.msg "invalid utf-8 sequence")

def serializeString (value : String) : List UInt8 := serializeSlice value.toUTF8.toList

/-! ## `read` -/

/-- One field of the record, added to the edit; `touched` are the file numbers seen so far. -/
def readField (touched : List Nat) (edit : VersionEdit) (input : List UInt8) :
    Except EditError (List Nat × VersionEdit × List UInt8) := do
  let (tagValue, input) ← parseVarint input
  let some tag := Tag.fromValue (tagValue % 2 ^ 32) | throw (.unknownTag (tagValue % 2 ^ 32))
  match tag with
  | .Comparator =>
    let (value, input) ← parseString input
    pure (touched, { edit with comparator := some value }, input)
  | .LogNumber =>
    let (num, input) ← parseVarint input
    pure (touched, { edit with logNumber := some num }, input)
  | .LastSequence =>
    let (num, input) ← parseVarint input
    pure (touched, { edit with lastSequence := some num }, input)
  | .NewFile =>
    let (level, input) ← parseVarint input
    let (number, input) ← parseVarint input
    let (fileSize, input) ← parseVarint input
    let (smallestKey, input) ← parseSlice input
    let (largestKey, input) ← parseSlice input
    if number ∈ touched then
      throw (.msg "Not allowed to create the same new file in the same record")
    pure (number :: touched,
      { edit with
        newFiles := edit.newFiles ++
          [⟨level % 2 ^ 32, number, fileSize, smallestKey, largestKey, none⟩] }, input)
  | .NewFile2 =>
    -- no check of the number, and the number is not recorded as touched
    let (level, input) ← parseVarint input
    let (number, input) ← parseVarint input
    let (fileSize, input) ← parseVarint input
    let (smallestKey, input) ← parseSlice input
    let (largestKey, input) ← parseSlice input
    let (smallestSeq, input) ← parseVarint input
    let (largestSeq, input) ← parseVarint input
    pure (touched,
      { edit with
        newFiles := edit.newFiles ++ [⟨level % 2 ^ 32, number, fileSize, smallestKey, largestKey,
          some (smallestSeq, largestSeq)⟩] }, input)
  | .PrevLogNumber =>
    let (num, input) ← parseVarint input
    pure (touched, { edit with prevLogNumber := some num }, input)
  | .NextFileNumber =>
    let (num, input) ← parseVarint input
    pure (touched, { edit with nextFileNumber := some num }, input)
  | .DeletedFile =>
    let (level, input) ← parseVarint input
    let (fileNumber, input) ← parseVarint input
    if fileNumber ∈ touched then
      throw (.msg
        "Deleted a file that was already referenced in the same VersionEdit is not allowed")
    pure (fileNumber :: touched,
      { edit with deletedFiles := edit.deletedFiles ++ [⟨level % 2 ^ 32, fileNumber⟩] }, input)
  | .CompactionWaterline =>
    let (num, input) ← parseVarint input
    pure (touched, { edit with compactionWaterline := some num }, input)
  | tag => throw (.unsupportedTag tag)

/-- The `while` loop of `read`: fields until the record is used up. -/
def readLoop (touched : List Nat) (edit : VersionEdit) : Nat → List UInt8 →
    Except EditError VersionEdit
  | 0, _ => .ok edit
  | _ + 1, [] => .ok edit
  | fuel + 1, input@(_ :: _) => do
    let (touched, edit, input) ← readField touched edit input
    readLoop touched edit fuel input

/-- `VersionEdit::read` on what `RecordReader::read` returned: `None` at the end of the file. -/
def read (record : Option (List UInt8)) : Except EditError (Option VersionEdit) :=
  match record with
  | none => .ok none
  | some record => some <$> readLoop [] {} (record.length + 1) record

/-! ## `serialize` -/

/-- A field with a number, when it is set. -/
def serializeNumberField (tag : Tag) : Option Nat → List UInt8
  | some num => serializeVarint tag.toValue ++ serializeVarint num
  | none => []

def serializeDeletedFile (file : DeletedFileEntry) : List UInt8 :=
  serializeVarint Tag.DeletedFile.toValue ++ serializeVarint file.level ++
    serializeVarint file.number

def serializeNewFile (file : NewFileEntry) : List UInt8 :=
  let tag := if file.sequenceRange.isSome then Tag.NewFile2 else Tag.NewFile
  serializeVarint tag.toValue ++ serializeVarint file.level ++ serializeVarint file.number ++
    serializeVarint file.fileSize ++ serializeSlice file.smallestKey ++
    serializeSlice file.largestKey ++
    match file.sequenceRange with
    | some (min, max) => serializeVarint min ++ serializeVarint max
    | none => []

/-- The files of an edit, each refused when its number was touched before. -/
def serializeFiles {α : Type} (number : α → Nat) (write : α → List UInt8) (err : String) :
    List Nat → List α → Except EditError (List Nat × List UInt8)
  | touched, [] => .ok (touched, [])
  | touched, file :: files =>
    if number file ∈ touched then .error (.msg err)
    else do
      let (touched, rest) ← serializeFiles number write err (number file :: touched) files
      pure (touched, write file ++ rest)

def VersionEdit.serialize (edit : VersionEdit) : Except EditError (List UInt8) := do
  let comparator := match edit.comparator with
    | some value => serializeVarint Tag.Comparator.toValue ++ serializeString value
    | none => []
  let (touched, deleted) ← serializeFiles DeletedFileEntry.number serializeDeletedFile
    "Duplicate file deletion" [] edit.deletedFiles
  let (_, created) ← serializeFiles NewFileEntry.number serializeNewFile
    "Created a file that was already touched" touched edit.newFiles
  pure (comparator ++ serializeNumberField .LogNumber edit.logNumber ++
    serializeNumberField .PrevLogNumber edit.prevLogNumber ++
    serializeNumberField .LastSequence edit.lastSequence ++
    serializeNumberField .NextFileNumber edit.nextFileNumber ++
    serializeNumberField .CompactionWaterline edit.compactionWaterline ++ deleted ++ created)

/-- A file of level 1 with a sequence range, as the compaction thread writes them. -/
def rangedFile : NewFileEntry := ⟨1, 5, 10, [1], [2], some (1, 2)⟩

/-- An edit creating file 5 twice: `serialize` refuses it, and `read` accepts the record that
holds its two `NewFile2` fields and gives the edit back. -/
theorem read_accepts_twice_created_file :
    ({ newFiles := [rangedFile, rangedFile] } : VersionEdit).serialize =
        .error (.msg "Created a file that was already touched") ∧
      read (some (serializeNewFile rangedFile ++ serializeNewFile rangedFile)) =
        .ok (some { newFiles := [rangedFile, rangedFile] }) := by
  decide +kernel

end Manifest

end Dacha.SSTable
