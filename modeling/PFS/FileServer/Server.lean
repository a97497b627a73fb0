import PFS.Config
import Mathlib.Logic.Function.Basic

/-! # File servers

`FileServerServiceImpl` with the strips it has on disk.  A strip file is a list
of bytes; `fseek` may go past its end, `fwrite` there fills the gap with zeros,
and `fread` leaves the buffer as it was where the file is too short.  `none` is
a request that the server rejects.
-/

namespace PFS

/-- The files of a host, by path. -/
abbrev Disk := String → Option (List UInt8)

/-- `fwrite` of one byte at position `pos`. -/
def writeByte (content : List UInt8) (pos : Nat) (byte : UInt8) : List UInt8 :=
  if pos < content.length then content.set pos byte
  else content ++ List.replicate (pos - content.length) 0 ++ [byte]

/-- `fwrite` of `data` at position `pos`. -/
def fwrite (content : List UInt8) (pos : Nat) : List UInt8 → List UInt8
  | [] => content
  | byte :: rest => fwrite (writeByte content pos byte) (pos + 1) rest

/-- `fread` at position `pos` into a buffer. -/
def fread (content : List UInt8) (pos : Nat) (buffer : Nat → UInt8) : Nat → UInt8 :=
  fun i => content[pos + i]?.getD (buffer i)

/-- The loop of `WriteBlock`, its first `n` rounds: a byte is written where the
    mask is set and skipped elsewhere. -/
def writeDirty (data dirty : Nat → UInt8) (pos : Nat) : Nat → List UInt8 → List UInt8
  | 0, content => content
  | n + 1, content =>
      if dirty n = 0 then writeDirty data dirty pos n content
      else writeByte (writeDirty data dirty pos n content) (pos + n) (data n)

/-- `class FSFile`. -/
structure FSFile where
  stripWidth : Nat
  stripPaths : Nat → Option String := fun _ => none

namespace FSFile

def addStrip (file : FSFile) (path : String) (index : Nat) : FSFile :=
  { file with stripPaths := Function.update file.stripPaths index (some path) }

/-- The empty path if the server does not have the strip. -/
def getStripPath (file : FSFile) (index : Nat) : String := (file.stripPaths index).getD ""

end FSFile

/-- `class FileServerServiceImpl`. -/
structure FileServer where
  filesDirectory : String
  files : String → Option FSFile := fun _ => none

/-- Bytes in a strip. -/
def stripBytes : Nat := stripSize * pfsBlockSizeInBytes

/-- `fileOffset` of the handlers: the bytes of the file before `addr` that are
    in other strips, in `uint32_t` arithmetic. -/
def skippedBytes (stripWidth addr : Nat) : Nat :=
  let stripeIndex := addr / stripBytes
  ((stripeIndex - stripeIndex % stripWidth) / stripWidth * (stripWidth - 1) % uint32Size * stripBytes % uint32Size +
    stripeIndex % stripWidth * stripBytes) % uint32Size

namespace FileServer

/-- `CreateFile`: makes the strip with number `id`. -/
def createFile (server : FileServer) (disk : Disk) (name : String) (stripeWidth id : Nat) : FileServer × Disk :=
  let file := (server.files name).getD { stripWidth := stripeWidth }
  let stripeAddress := server.filesDirectory ++ name ++ "_" ++ toString id
  ({ server with files := Function.update server.files name (some (file.addStrip stripeAddress id)) },
    Function.update disk stripeAddress (some []))

/-- What the four handlers of reads and writes begin with: the strip file and
    the position in it. -/
def locate (server : FileServer) (name : String) (addr size : Nat) : Option (String × Nat) := do
  let file ← server.files name
  let strip := addr / stripBytes % file.stripWidth
  let maxSize := (addr + stripBytes) / stripBytes * stripBytes
  let stripPath := file.getStripPath strip
  if stripPath = "" then none
  else if addr + size > maxSize then none
  else some (stripPath, (addr + (uint32Size - skippedBytes file.stripWidth addr)) % uint32Size)

def readFile (server : FileServer) (disk : Disk) (name : String) (start size : Nat) (buffer : Nat → UInt8) :
    Option (Nat → UInt8) := do
  let (path, pos) ← server.locate name start size
  let content ← disk path
  some (fread content pos buffer)

def writeFile (server : FileServer) (disk : Disk) (name : String) (start : Nat) (data : List UInt8) : Option Disk := do
  let (path, pos) ← server.locate name start data.length
  let content ← disk path
  some (Function.update disk path (some (fwrite content pos data)))

def readBlock (server : FileServer) (disk : Disk) (name : String) (addr : Nat) (buffer : Nat → UInt8) :
    Option (Nat → UInt8) := do
  let (path, pos) ← server.locate name addr pfsBlockSizeInBytes
  let content ← disk path
  some (fread content pos buffer)

def writeBlock (server : FileServer) (disk : Disk) (name : String) (addr : Nat) (data dirty : Nat → UInt8) :
    Option Disk := do
  let (path, pos) ← server.locate name addr pfsBlockSizeInBytes
  let content ← disk path
  some (Function.update disk path (some (writeDirty data dirty pos pfsBlockSizeInBytes content)))

end FileServer

/-! ## Strip files -/

theorem writeByte_self (content : List UInt8) (pos : Nat) (byte : UInt8) :
    (writeByte content pos byte)[pos]? = some byte := by
  unfold writeByte
  split
  · next short => exact List.getElem?_set_self short
  · next long =>
      have len : (content ++ List.replicate (pos - content.length) 0).length = pos := by
        rw [List.length_append, List.length_replicate]
        omega
      rw [List.getElem?_append_right (Nat.le_of_eq len), len, Nat.sub_self]
      rfl

theorem writeByte_other {content : List UInt8} {pos i : Nat} {byte v : UInt8} (other : i ≠ pos)
    (stored : content[i]? = some v) : (writeByte content pos byte)[i]? = some v := by
  have small : i < content.length := (List.getElem?_eq_some_iff.mp stored).1
  unfold writeByte
  split
  · rw [List.getElem?_set_ne (Ne.symm other)]
    exact stored
  · rw [List.append_assoc, List.getElem?_append_left small]
    exact stored

theorem fwrite_other {data content : List UInt8} {pos i : Nat} {v : UInt8} (other : i < pos ∨ pos + data.length ≤ i)
    (stored : content[i]? = some v) : (fwrite content pos data)[i]? = some v := by
  induction data generalizing content pos with
  | nil => exact stored
  | cons byte rest ih =>
      rw [List.length_cons] at other
      apply ih
      · omega
      · exact writeByte_other (by omega) stored

theorem fwrite_inside {data content : List UInt8} {pos i : Nat} {v : UInt8} (stored : data[i]? = some v) :
    (fwrite content pos data)[pos + i]? = some v := by
  induction data generalizing content pos i with
  | nil => cases stored
  | cons byte rest ih =>
      cases i with
      | zero =>
          obtain rfl := Option.some.inj stored
          rw [fwrite]
          exact fwrite_other (.inl (by omega)) (writeByte_self content pos byte)
      | succ i =>
          have next : (fwrite (writeByte content pos byte) (pos + 1) rest)[pos + 1 + i]? = some v := ih stored
          rw [Nat.add_right_comm] at next
          exact next

theorem writeDirty_other {data dirty : Nat → UInt8} {pos n i : Nat} {content : List UInt8} {v : UInt8}
    (other : ∀ k, k < n → dirty k ≠ 0 → i ≠ pos + k) (stored : content[i]? = some v) :
    (writeDirty data dirty pos n content)[i]? = some v := by
  induction n with
  | zero => exact stored
  | succ n ih =>
      have before := ih (fun k small => other k (by omega))
      rw [writeDirty]
      split
      · exact before
      · next set => exact writeByte_other (other n (by omega) set) before

theorem writeDirty_inside {data dirty : Nat → UInt8} {pos n k : Nat} {content : List UInt8} (small : k < n)
    (set : dirty k ≠ 0) : (writeDirty data dirty pos n content)[pos + k]? = some (data k) := by
  induction n with
  | zero => cases small
  | succ n ih =>
      rw [writeDirty]
      split
      · next clear =>
          have less : k < n := by
            rcases Nat.lt_succ_iff_lt_or_eq.mp small with less | rfl
            · exact less
            · exact (set clear).elim
          exact ih less
      · by_cases last : k = n
        · subst last; exact writeByte_self _ _ _
        · exact writeByte_other (by omega) (ih (by omega))

end PFS
