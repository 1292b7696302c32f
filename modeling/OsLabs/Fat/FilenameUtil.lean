import OsLabs.Fat.State

/-! # 8.3 names and paths (`fat_filename_util.c`, `dirname`, `basename`, `strcmp`) -/

namespace OsLabs.Fat

/-! ## C strings -/

/-- `NUL`-terminated contents of a character array. -/
def cstr (b : List UInt8) : CString := b.takeWhile (· ≠ 0)

/-- `'/'`. -/
def slash : UInt8 := 47

/-- `'.'`. -/
def dot : UInt8 := 46

/-- `' '`. -/
def space : UInt8 := 32

/-- `"/"`. -/
def rootPath : CString := [slash]

/-- `"fs.log"`. -/
def fsLogName : CString := [102, 115, 46, 108, 111, 103]

/-- `"/fs.log"`. -/
def fsLogPath : CString := slash :: fsLogName

/-- `strcmp`: negative, zero or positive as the first string comes before, is, or comes after the
second one in the order of their bytes. -/
def strcmp (a b : CString) : Int := if a = b then 0 else if a < b then -1 else 1

/-- `strrchr`: the index of the last occurrence of a character. -/
def strrchr (s : CString) (c : UInt8) : Option Nat :=
  (s.reverse.findIdx? (· = c)).map fun i => s.length - 1 - i

/-- `basename` of `string.h`: what follows the last slash. -/
def basename (path : CString) : CString := (path.reverse.takeWhile (· ≠ slash)).reverse

/-- `dirname`: the path without trailing slashes, without its last component, and without the
slashes before that component. -/
def dirname (path : CString) : CString :=
  let trimmed := path.reverse.dropWhile (· = slash)
  let parent := (trimmed.dropWhile (· ≠ slash)).dropWhile (· = slash)
  if parent ≠ [] then parent.reverse
  else if path.head? = some slash then rootPath
  else [dot]

/-! ## Legal characters -/

/-- `_fat_char_tab`: the characters that are legal in a file name. -/
def charLegalInFilename (c : UInt8) : Bool :=
  (97 ≤ c && c ≤ 122) || (65 ≤ c && c ≤ 90) || (48 ≤ c && c ≤ 57) || 128 ≤ c ||
    c ∈ [32, 36, 37, 45, 95, 64, 126, 96, 33, 40, 41, 123, 125, 94, 35, 38]

/-- The `do`-`while` loop of `file_basename_valid`, from index `i` with `fuel` characters left. -/
def basenameLegalFrom (name : Nat → UInt8) : Nat → Nat → Bool
  | 0, _ => true
  | fuel + 1, i =>
      charLegalInFilename (name i) &&
        (i + 1 = 8 || name (i + 1) = 0 || name (i + 1) = space ||
          basenameLegalFrom name fuel (i + 1))

/-- `file_basename_valid`. -/
def fileBasenameValid (name : Nat → UInt8) : Bool :=
  if name 0 = 0 ∨ name 0 = space ∨ name 0 = 0xe5 then false
  else basenameLegalFrom name 8 0

/-- The loop of `file_extension_valid`, from index `i`. -/
def extensionLegalFrom (extension : Nat → UInt8) : Nat → Nat → Bool
  | 0, _ => true
  | fuel + 1, i =>
      if extension i = 0 ∨ extension i = space then true
      else charLegalInFilename (extension i) && extensionLegalFrom extension fuel (i + 1)

/-- `file_extension_valid`. -/
def fileExtensionValid (extension : Nat → UInt8) : Bool := extensionLegalFrom extension 3 0

/-! ## Conversions -/

/-- `filename_len`: the length up to the last character, within `maxLen`, that is neither a space
nor `NUL`. -/
def filenameLen (name : Nat → UInt8) : Nat → Nat
  | 0 => 0
  | len + 1 =>
      if name len ≠ space ∧ name len ≠ 0 then len + 1 else filenameLen name len

/-- `build_filename`: the characters stored before the final `NUL`. -/
def buildFilename (baseName extension : Nat → UInt8) : List UInt8 :=
  let nameLen := filenameLen baseName 8
  if nameLen = 0 then [slash]
  else
    let extensionLen := filenameLen extension 3
    (List.range nameLen).map baseName ++
      if extensionLen = 0 then [] else dot :: (List.range extensionLen).map extension

/-- The first loop of `filename_from_path`, about to copy the character at index `i`; returns the
index it stops at. -/
def copyBase (src : Nat → UInt8) (nameLen : Nat) (dotPos : Option Nat) :
    Nat → Nat → DirEntry → Nat × DirEntry
  | 0, i, entry => (i, entry)
  | fuel + 1, i, entry =>
      let entry := entry.setByte i (src i)
      if i + 1 < nameLen ∧ dotPos ≠ some (i + 1) then copyBase src nameLen dotPos fuel (i + 1) entry
      else (i + 1, entry)

/-- The second loop of `filename_from_path`: store the extension characters from index `j` on. The
field is followed by the rest of the 32-byte entry, which the loop may run into; leaving the entry
is out of bounds. -/
def copyExtension : List UInt8 → Nat → DirEntry → Except Fault (Nat × DirEntry)
  | [], j, entry => .ok (j, entry)
  | c :: rest, j, entry =>
      if c = space then .ok (j, entry)
      else if 8 + j < 32 then copyExtension rest (j + 1) (entry.setByte (8 + j) c)
      else .error .outOfBounds

/-- The characters of a copied string, and the bytes of memory after it. -/
def stringMem (src : CString) (afterString : Nat → UInt8) (i : Nat) : UInt8 :=
  if i < src.length then src.getD i 0
  else if i = src.length then 0
  else afterString (i - src.length - 1)

/-- `filename_from_path`, writing the base name and the extension of a directory entry. -/
def filenameFromPath (src : CString) (afterString : Nat → UInt8) (entry : DirEntry) :
    Except Fault DirEntry := do
  let mem := stringMem src afterString
  let nameLen := filenameLen mem 8
  if nameLen = 0 then .ok ((entry.setByte 0 0).setByte 8 0)
  else
    let dotPos := strrchr src dot
    let (i, entry) := copyBase mem nameLen dotPos 8 0 entry
    let (j, entry) ←
      if dotPos ≠ none ∧ i < nameLen then copyExtension (src.drop (i + 1)) 0 entry
      else .ok (0, entry)
    .ok (if j < 3 then entry.setByte (8 + (j + 1)) 0 else entry)

/-- `filepath_from_name`. -/
def filepathFromName (parentFilepath fileName : CString) : CString :=
  if parentFilepath.getLast? ≠ some slash then parentFilepath ++ slash :: fileName
  else parentFilepath ++ fileName

end OsLabs.Fat
