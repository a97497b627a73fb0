import PFS.FileServer.Server
import PFS.Lib.Reachable

/-! # The striped store is a flat byte array

Strip `i` of a file is on server `i % numFileServers`; every byte of every file
has a place of its own in one of the strip files, and the manager, the clients
and the four handlers of the servers agree about it.  So the servers together
behave as one array of bytes a file.
-/

namespace PFS

open Lib

/-! ## Places -/

/-- Position of byte `b` of a file in its strip file. -/
def stripPosition (stripWidth b : Nat) : Nat := b / stripBytes / stripWidth * stripBytes + b % stripBytes

/-- The strip of byte `b`. -/
def stripOf (stripWidth b : Nat) : Nat := b / stripBytes % stripWidth

/-- The skipped bytes do not wrap: together with the position they are the address. -/
theorem skippedBytes_add {stripWidth addr : Nat} (wide : 1 ≤ stripWidth) (small : addr ≤ intMax) :
    skippedBytes stripWidth addr + stripPosition stripWidth addr = addr := by
  obtain ⟨others, rfl⟩ : ∃ others, stripWidth = others + 1 := ⟨stripWidth - 1, by omega⟩
  have whole := Nat.div_add_mod (addr / stripBytes) (others + 1)
  have rest := Nat.div_add_mod addr stripBytes
  simp only [skippedBytes, stripPosition, Nat.add_sub_cancel]
  generalize addr / stripBytes = stripeIndex at *
  generalize stripeIndex % (others + 1) = strip at *
  generalize stripeIndex / (others + 1) = round at *
  have rounds : (stripeIndex - strip) / (others + 1) = round := by
    rw [← whole, Nat.add_sub_cancel, Nat.mul_div_cancel_left _ (by omega)]
  have expand : (others + 1) * round = round * others + round := by
    rw [Nat.mul_comm, Nat.mul_succ]
  rw [rounds]
  simp only [stripBytes, stripSize, pfsBlockSizeInBytes, uint32Size, intMax] at *
  generalize round * others = skippedStrips at *
  omega

/-- Two bytes of a file in one strip at one position are the same byte. -/
theorem stripPosition_inj {stripWidth b b' : Nat} (strip : stripOf stripWidth b = stripOf stripWidth b')
    (position : stripPosition stripWidth b = stripPosition stripWidth b') : b = b' := by
  have whole := Nat.div_add_mod (b / stripBytes) stripWidth
  have whole' := Nat.div_add_mod (b' / stripBytes) stripWidth
  have rest := Nat.div_add_mod b stripBytes
  have rest' := Nat.div_add_mod b' stripBytes
  have low : b % stripBytes < stripBytes := Nat.mod_lt b (by decide)
  have low' : b' % stripBytes < stripBytes := Nat.mod_lt b' (by decide)
  simp only [stripOf, stripPosition] at strip position
  have rounds : b / stripBytes / stripWidth = b' / stripBytes / stripWidth := by
    simp only [stripBytes, stripSize, pfsBlockSizeInBytes] at *
    omega
  rw [rounds] at position whole
  rw [strip] at whole
  have index : b / stripBytes = b' / stripBytes := whole.symm.trans whole'
  rw [index] at rest
  omega

/-- The bytes of a strip's block are next to each other. -/
theorem strip_add (stripWidth addr i : Nat) (inside : addr % stripBytes + i < stripBytes) :
    stripOf stripWidth (addr + i) = stripOf stripWidth addr ∧
      stripPosition stripWidth (addr + i) = stripPosition stripWidth addr + i := by
  have index : (addr + i) / stripBytes = addr / stripBytes := by
    simp only [stripBytes, stripSize, pfsBlockSizeInBytes] at *
    omega
  have offset : (addr + i) % stripBytes = addr % stripBytes + i := by
    simp only [stripBytes, stripSize, pfsBlockSizeInBytes] at *
    omega
  simp only [stripOf, stripPosition, index, offset, true_and]
  exact (Nat.add_assoc _ _ _).symm

/-! ## Paths -/

/-- `filesDirectory` of the server with number `i`. -/
def serverDirectory (i : Nat) : String := "pfs_" ++ ("0.0.0.0:3000" ++ toString i) ++ "/"

/-- The path of a strip. -/
def stripPath (name : String) (strip : Nat) : String :=
  serverDirectory (strip % numFileServers) ++ name ++ "_" ++ toString strip

/-- Cutting at the first occurrence of a character. -/
theorem append_cons_inj {a : Char} {xs xs' ys ys' : List Char} (absent : a ∉ xs) (absent' : a ∉ xs')
    (same : xs ++ a :: ys = xs' ++ a :: ys') : xs = xs' ∧ ys = ys' := by
  induction xs generalizing xs' with
  | nil =>
      cases xs' with
      | nil => exact ⟨rfl, (List.cons.inj same).2⟩
      | cons x rest => exact (absent' (by rw [← (List.cons.inj same).1]; exact List.mem_cons_self)).elim
  | cons x rest ih =>
      cases xs' with
      | nil => exact (absent (by rw [(List.cons.inj same).1]; exact List.mem_cons_self)).elim
      | cons x' rest' =>
          obtain ⟨rfl, tails⟩ := List.cons.inj same
          obtain ⟨rfl, rfl⟩ := ih (fun inside => absent (List.mem_cons_of_mem _ inside))
            (fun inside => absent' (List.mem_cons_of_mem _ inside)) tails
          exact ⟨rfl, rfl⟩

theorem digits_toList (n : Nat) : (toString n).toList = Nat.toDigits 10 n := by
  rw [Nat.toString_eq_ofList_toDigits, String.toList_ofList]

theorem digits_inj {n m : Nat} (same : Nat.toDigits 10 n = Nat.toDigits 10 m) : n = m := by
  rw [← Nat.ofDigitChars_ten_toDigits (n := n), same, Nat.ofDigitChars_ten_toDigits]

theorem slash_not_digit (n : Nat) : '/' ∉ Nat.toDigits 10 n := by
  intro inside
  have digit := Nat.isDigit_of_mem_toDigits (by decide) (by decide) inside
  revert digit
  decide

theorem stripPath_toList (name : String) (strip : Nat) : (stripPath name strip).toList =
    ("pfs_".toList ++ ("0.0.0.0:3000".toList ++ Nat.toDigits 10 (strip % numFileServers))) ++
      '/' :: (name.toList ++ '_' :: Nat.toDigits 10 strip) := by
  simp only [stripPath, serverDirectory, String.toList_append, digits_toList, List.append_assoc]
  rfl

theorem stripPath_nonempty (name : String) (strip : Nat) : stripPath name strip ≠ "" := by
  intro empty
  have := congrArg String.toList empty
  rw [stripPath_toList] at this
  simp at this

/-- Different strips have different paths. -/
theorem stripPath_inj {name name' : String} {strip strip' : Nat} (same : stripPath name strip = stripPath name' strip') :
    name = name' ∧ strip = strip' := by
  have lists := congrArg String.toList same
  rw [stripPath_toList, stripPath_toList] at lists
  have noSlash : ∀ n, '/' ∉ "pfs_".toList ++ ("0.0.0.0:3000".toList ++ Nat.toDigits 10 n) := by
    intro n
    simp only [List.mem_append, not_or]
    exact ⟨by decide, by decide, slash_not_digit n⟩
  obtain ⟨-, names⟩ := append_cons_inj (noSlash _) (noSlash _) lists
  have reversed := congrArg List.reverse names
  simp only [List.reverse_append, List.reverse_cons, List.append_assoc, List.singleton_append] at reversed
  have noBar : ∀ n, '_' ∉ (Nat.toDigits 10 n).reverse := fun n inside =>
    Nat.underscore_not_in_toDigits (List.mem_reverse.mp inside)
  obtain ⟨digits, chars⟩ := append_cons_inj (noBar _) (noBar _) reversed
  exact ⟨String.toList_inj.mp (List.reverse_inj.mp chars), digits_inj (List.reverse_inj.mp digits)⟩

/-! ## The cluster -/

/-- The file servers, the disks they write to, and what the metadata manager
    knows of the files. -/
structure Cluster where
  servers : Nat → FileServer
  disk : Disk := fun _ => none
  widths : String → Option Nat := fun _ => none

namespace Cluster

/-- The servers as they start. -/
def start : Cluster where
  servers i := { filesDirectory := serverDirectory i }

/-- `CreateFile` of strip `id`, sent by the manager to the strip's server. -/
def createStrip (c : Cluster) (name : String) (width id : Nat) : Cluster :=
  let r := (c.servers (id % numFileServers)).createFile c.disk name width id
  { c with servers := Function.update c.servers (id % numFileServers) r.1, disk := r.2 }

/-- The manager's loop over the strips. -/
def createStrips (c : Cluster) (name : String) (width : Nat) : Nat → Cluster
  | 0 => c
  | n + 1 => (c.createStrips name width n).createStrip name width n

/-- `MetadataManagerServiceImpl::CreateFile`; `none` if the file exists. -/
def createFile (c : Cluster) (name : String) (width : Nat) : Option Cluster :=
  match c.widths name with
  | some _ => none
  | none =>
      some (createStrips { c with widths := Function.update c.widths name (some width) } name width width)

/-- The server a client sends a request for `addr` to. -/
def serverFor (c : Cluster) (width addr : Nat) : FileServer := c.servers (addr / stripBytes % width % numFileServers)

end Cluster

/-- A request to the manager or, through a client, to a file server.  A read
    comes with the contents of the buffer the server reads into. -/
inductive StoreRequest where
  | createFile (name : String) (width : Nat)
  | writeBlock (name : String) (addr : Nat) (data dirty : Nat → UInt8)
  | readBlock (name : String) (addr : Nat) (buffer : Nat → UInt8)
  | writeFile (name : String) (start : Nat) (data : List UInt8)
  | readFile (name : String) (start size : Nat) (buffer : Nat → UInt8)

/-- The cluster, beside the array of bytes it is to implement: the byte last
    written at each position of each file. -/
structure StripedStore where
  cluster : Cluster
  flat : String → Nat → Option UInt8

namespace StripedStore

/-- Requests as the clients make them. -/
def allowed (s : StripedStore) : StoreRequest → Prop
  | .createFile name width =>
      s.cluster.widths name = none ∧ '/' ∉ name.toList ∧ 1 ≤ width ∧ width ≤ intMax
  | .writeBlock name addr _ _ | .readBlock name addr _ =>
      (s.cluster.widths name).isSome = true ∧ addr % pfsBlockSizeInBytes = 0 ∧ addr + stripBytes ≤ intMax
  | .writeFile name start data =>
      (s.cluster.widths name).isSome = true ∧ start % stripBytes + data.length ≤ stripBytes ∧ start + stripBytes ≤ intMax
  | .readFile name start size _ =>
      (s.cluster.widths name).isSome = true ∧ start % stripBytes + size ≤ stripBytes ∧ start + stripBytes ≤ intMax

/-- The store after a request and, for a read, the bytes it returned. -/
def exec (s : StripedStore) : StoreRequest → Option (StripedStore × Option (Nat → UInt8))
  | .createFile name width => (s.cluster.createFile name width).map fun c => ({ s with cluster := c }, none)
  | .writeBlock name addr data dirty => do
      let width ← s.cluster.widths name
      let disk ← (s.cluster.serverFor width addr).writeBlock s.cluster.disk name addr data dirty
      some ({ cluster := { s.cluster with disk := disk }
              flat := Function.update s.flat name fun b =>
                if addr ≤ b ∧ b < addr + pfsBlockSizeInBytes ∧ dirty (b - addr) ≠ 0 then some (data (b - addr))
                else s.flat name b }, none)
  | .readBlock name addr buffer => do
      let width ← s.cluster.widths name
      let data ← (s.cluster.serverFor width addr).readBlock s.cluster.disk name addr buffer
      some (s, some data)
  | .writeFile name start data => do
      let width ← s.cluster.widths name
      let disk ← (s.cluster.serverFor width start).writeFile s.cluster.disk name start data
      some ({ cluster := { s.cluster with disk := disk }
              flat := Function.update s.flat name fun b =>
                if start ≤ b ∧ b < start + data.length then data[b - start]? else s.flat name b }, none)
  | .readFile name start size buffer => do
      let width ← s.cluster.widths name
      let data ← (s.cluster.serverFor width start).readFile s.cluster.disk name start size buffer
      some (s, some data)

def machine : Machine StripedStore StoreRequest := ⟨allowed, fun s r => (s.exec r).map Prod.fst⟩

def Initial (s : StripedStore) : Prop := s.cluster = Cluster.start ∧ ∀ name b, s.flat name b = none

end StripedStore

/-! ## Creating a file -/

namespace Cluster

/-- The record of a server with strips among the first `n`. -/
def madeRecord (old : Option FSFile) (name : String) (width n server : Nat) : FSFile where
  stripWidth := (old.map FSFile.stripWidth).getD width
  stripPaths strip :=
    if strip < n ∧ strip % numFileServers = server then some (stripPath name strip)
    else old.bind fun file => file.stripPaths strip

/-- What a server knows of a name when the first `n` strips have been created. -/
def recordAfter (old : Option FSFile) (name : String) (width n server : Nat) : Option FSFile :=
  if ∃ strip < n, strip % numFileServers = server then some (madeRecord old name width n server) else old

theorem recordAfter_zero (old : Option FSFile) (name : String) (width server : Nat) :
    recordAfter old name width 0 server = old := by
  simp [recordAfter]

theorem exists_lt_succ_iff {P : Nat → Prop} {n : Nat} : (∃ k < n + 1, P k) ↔ P n ∨ ∃ k < n, P k := by
  simp only [Nat.lt_succ_iff_lt_or_eq, or_and_right, exists_or, exists_eq_left]
  exact Or.comm

/-- One more strip in the record of its server. -/
theorem recordAfter_here (old : Option FSFile) (name : String) (width n : Nat) :
    some (((recordAfter old name width n (n % numFileServers)).getD { stripWidth := width }).addStrip
      (stripPath name n) n) = recordAfter old name width (n + 1) (n % numFileServers) := by
  have strips : ∀ strips : Nat → Option String,
      (∀ strip, strips strip = if strip < n ∧ strip % numFileServers = n % numFileServers then
        some (stripPath name strip) else old.bind fun file => file.stripPaths strip) →
      Function.update strips n (some (stripPath name n)) =
        (madeRecord old name width (n + 1) (n % numFileServers)).stripPaths := by
    intro strips is
    funext strip
    by_cases last : strip = n
    · subst last
      simp [madeRecord]
    · have smaller : strip < n + 1 ↔ strip < n := by omega
      rw [Function.update_of_ne last, is strip]
      simp only [madeRecord, smaller]
  have hosted : ∃ strip < n + 1, strip % numFileServers = n % numFileServers := ⟨n, Nat.lt_succ_self n, rfl⟩
  rw [recordAfter, recordAfter, if_pos hosted]
  congr 1
  split
  · rw [Option.getD_some, FSFile.addStrip, strips (madeRecord old name width n _).stripPaths (fun _ => rfl)]
    rfl
  · next noneYet =>
      have none : ∀ strip, ¬ (strip < n ∧ strip % numFileServers = n % numFileServers) :=
        fun strip here => noneYet ⟨strip, here⟩
      cases old with
      | none =>
          rw [Option.getD_none, FSFile.addStrip, strips _ (fun strip => by rw [if_neg (none strip)]; rfl)]
          rfl
      | some file =>
          rw [Option.getD_some, FSFile.addStrip, strips _ (fun strip => by rw [if_neg (none strip)]; rfl)]
          rfl

/-- The other servers do not have it. -/
theorem recordAfter_elsewhere (old : Option FSFile) (name : String) (width : Nat) {n server : Nat}
    (elsewhere : server ≠ n % numFileServers) :
    recordAfter old name width n server = recordAfter old name width (n + 1) server := by
  have other : ¬ n % numFileServers = server := Ne.symm elsewhere
  have smaller : ∀ strip, (strip < n + 1 ∧ strip % numFileServers = server) ↔
      (strip < n ∧ strip % numFileServers = server) := by
    intro strip
    constructor
    · rintro ⟨small, here⟩
      refine ⟨?_, here⟩
      rcases Nat.lt_succ_iff_lt_or_eq.mp small with less | rfl
      · exact less
      · exact (other here).elim
    · exact fun h => ⟨by omega, h.2⟩
  simp only [recordAfter, madeRecord, smaller]

theorem createStrip_dirs (c : Cluster) (name : String) (width id i : Nat) :
    ((c.createStrip name width id).servers i).filesDirectory = (c.servers i).filesDirectory := by
  by_cases same : i = id % numFileServers
  · subst same
    simp [createStrip, FileServer.createFile]
  · simp only [createStrip, Function.update_of_ne same]

theorem createStrip_others (c : Cluster) {name other : String} (width id i : Nat) (different : other ≠ name) :
    ((c.createStrip name width id).servers i).files other = (c.servers i).files other := by
  by_cases same : i = id % numFileServers
  · subst same
    simp [createStrip, FileServer.createFile, Function.update_of_ne different]
  · simp only [createStrip, Function.update_of_ne same]

section Strip

variable {c : Cluster} {name : String} {width n : Nat}

theorem createStrip_disk (dirs : ∀ i, (c.servers i).filesDirectory = serverDirectory i) :
    (c.createStrip name width n).disk = Function.update c.disk (stripPath name n) (some []) := by
  simp only [createStrip, FileServer.createFile, dirs, stripPath]

/-- The strips of a name are created in turn. -/
theorem createStrip_records {old : Nat → Option FSFile} (dirs : ∀ i, (c.servers i).filesDirectory = serverDirectory i)
    (records : ∀ i, (c.servers i).files name = recordAfter (old i) name width n i) (i : Nat) :
    ((c.createStrip name width n).servers i).files name = recordAfter (old i) name width (n + 1) i := by
  by_cases same : i = n % numFileServers
  · subst same
    simp only [createStrip, FileServer.createFile, Function.update_self, dirs, records]
    exact recordAfter_here (old _) name width n
  · rw [← recordAfter_elsewhere _ _ _ same, ← records i]
    simp only [createStrip, Function.update_of_ne same]

end Strip

/-- What the creation of the first `n` strips leaves behind: the strips are added to
    the records the servers have of the name. -/
structure Made (c c' : Cluster) (name : String) (width n : Nat) : Prop where
  dirs : ∀ i, (c'.servers i).filesDirectory = (c.servers i).filesDirectory
  others : ∀ i name', name' ≠ name → (c'.servers i).files name' = (c.servers i).files name'
  records : ∀ i, (c'.servers i).files name = recordAfter ((c.servers i).files name) name width n i
  disk : ∀ path, c'.disk path = if ∃ strip < n, path = stripPath name strip then some [] else c.disk path
  widths : c'.widths = c.widths

theorem createStrips_made {c : Cluster} (name : String) (width : Nat)
    (dirs : ∀ i, (c.servers i).filesDirectory = serverDirectory i) (n : Nat) :
    Made c (c.createStrips name width n) name width n := by
  induction n with
  | zero =>
      refine ⟨fun _ => rfl, fun _ _ _ => rfl, fun i => ?_, fun path => by simp [createStrips], rfl⟩
      rw [recordAfter_zero, createStrips]
  | succ n ih =>
      have dirs' : ∀ i, ((c.createStrips name width n).servers i).filesDirectory = serverDirectory i :=
        fun i => (ih.dirs i).trans (dirs i)
      refine ⟨fun i => (createStrip_dirs _ _ _ _ i).trans (ih.dirs i),
        fun i other different => (createStrip_others _ _ _ i different).trans (ih.others i other different),
        createStrip_records dirs' ih.records, fun path => ?_, ih.widths⟩
      rw [createStrips, createStrip_disk dirs']
      simp only [exists_lt_succ_iff]
      by_cases last : path = stripPath name n
      · rw [last, Function.update_self, if_pos (.inl rfl)]
      · rw [Function.update_of_ne last, ih.disk path]
        simp only [last, false_or]

/-- What the first `n` strips of a new file leave behind. -/
structure Created (c c' : Cluster) (name : String) (width n : Nat) : Prop where
  dirs : ∀ i, (c'.servers i).filesDirectory = (c.servers i).filesDirectory
  others : ∀ i name', name' ≠ name → (c'.servers i).files name' = (c.servers i).files name'
  width : ∀ i file, (c'.servers i).files name = some file → file.stripWidth = width
  strips : ∀ strip, strip < n → ∃ file, (c'.servers (strip % numFileServers)).files name = some file ∧
    file.stripPaths strip = some (stripPath name strip) ∧ c'.disk (stripPath name strip) = some []
  disk : ∀ path, (∀ strip, path ≠ stripPath name strip) → c'.disk path = c.disk path
  widths : c'.widths = c.widths

theorem createStrips_created {c : Cluster} {name : String} (width : Nat)
    (dirs : ∀ i, (c.servers i).filesDirectory = serverDirectory i)
    (fresh : ∀ i, (c.servers i).files name = none) (n : Nat) :
    Created c (c.createStrips name width n) name width n := by
  have made := createStrips_made name width dirs n
  refine ⟨made.dirs, made.others, ?_, ?_, ?_, made.widths⟩
  · intro i file found
    rw [made.records i, fresh i, recordAfter] at found
    split at found
    · obtain rfl := Option.some.inj found
      rfl
    · cases found
  · intro strip small
    refine ⟨_, by rw [made.records, recordAfter, if_pos ⟨strip, small, rfl⟩], ?_, ?_⟩
    · simp only [madeRecord, small, true_and, if_true]
    · rw [made.disk, if_pos ⟨strip, small, rfl⟩]
  · intro path away
    rw [made.disk, if_neg]
    rintro ⟨strip, -, same⟩
    exact away strip same

end Cluster

/-- A server with the strip of `addr` finds its file and the position in it. -/
theorem FileServer.locate_path {server : FileServer} {file : FSFile} {name path : String} {addr size : Nat}
    (found : server.files name = some file) (stored : file.stripPaths (stripOf file.stripWidth addr) = some path)
    (nonempty : path ≠ "") (wide : 1 ≤ file.stripWidth) (inside : addr % stripBytes + size ≤ stripBytes)
    (small : addr + stripBytes ≤ intMax) :
    server.locate name addr size = some (path, stripPosition file.stripWidth addr) := by
  have strip : addr / stripBytes % file.stripWidth = stripOf file.stripWidth addr := rfl
  have stripPath : file.getStripPath (stripOf file.stripWidth addr) = path := by
    rw [FSFile.getStripPath, stored, Option.getD_some]
  have fits : ¬ addr + size > (addr + stripBytes) / stripBytes * stripBytes := by
    simp only [stripBytes, stripSize, pfsBlockSizeInBytes] at *
    omega
  have whole := skippedBytes_add wide (show addr ≤ intMax by omega)
  have position : (addr + (uint32Size - skippedBytes file.stripWidth addr)) % uint32Size =
      stripPosition file.stripWidth addr := by
    simp only [uint32Size, intMax] at *
    omega
  simp only [FileServer.locate, found, Option.bind_eq_bind, Option.bind_some, strip, stripPath, if_neg nonempty,
    if_neg fits, position]

theorem FileServer.locate_strip {server : FileServer} {file : FSFile} {name : String} {width addr size : Nat}
    (found : server.files name = some file) (fileWidth : file.stripWidth = width)
    (stored : file.stripPaths (stripOf width addr) = some (stripPath name (stripOf width addr))) (wide : 1 ≤ width)
    (inside : addr % stripBytes + size ≤ stripBytes) (small : addr + stripBytes ≤ intMax) :
    server.locate name addr size = some (stripPath name (stripOf width addr), stripPosition width addr) := by
  subst fileWidth
  exact locate_path found stored (stripPath_nonempty _ _) wide inside small

namespace StripedStore

/-- The invariant: every strip of every file is where it belongs, and every
    written byte is in its place. -/
structure Inv (s : StripedStore) : Prop where
  dirs : ∀ i, (s.cluster.servers i).filesDirectory = serverDirectory i
  wide : ∀ name width, s.cluster.widths name = some width → 1 ≤ width
  strips : ∀ name width strip, s.cluster.widths name = some width → strip < width →
    ∃ file content, (s.cluster.servers (strip % numFileServers)).files name = some file ∧
      file.stripWidth = width ∧ file.stripPaths strip = some (stripPath name strip) ∧
      s.cluster.disk (stripPath name strip) = some content
  fresh : ∀ name, s.cluster.widths name = none →
    (∀ i, (s.cluster.servers i).files name = none) ∧ ∀ b, s.flat name b = none
  bytes : ∀ name width b v, s.cluster.widths name = some width → s.flat name b = some v →
    ∃ content, s.cluster.disk (stripPath name (stripOf width b)) = some content ∧
      content[stripPosition width b]? = some v

namespace Inv

variable {s : StripedStore}

theorem initial (h : Initial s) : Inv s := by
  obtain ⟨start, blank⟩ := h
  refine ⟨?_, ?_, ?_, ?_, ?_⟩
  · rw [start]; exact fun _ => rfl
  · rw [start]; exact fun _ _ found => nomatch found
  · rw [start]; exact fun _ _ _ found => nomatch found
  · rw [start]; exact fun name _ => ⟨fun _ => rfl, blank name⟩
  · rw [start]; exact fun _ _ _ _ found => nomatch found

theorem createFile (h : Inv s) {name : String} {width : Nat} {s' : StripedStore} {reply : Option (Nat → UInt8)}
    (absent : s.cluster.widths name = none) (wide : 1 ≤ width)
    (ran : s.exec (.createFile name width) = some (s', reply)) : Inv s' := by
  obtain ⟨c, made, result⟩ := Option.map_eq_some_iff.mp ran
  obtain ⟨rfl, -⟩ := Prod.mk.inj result
  simp only [Cluster.createFile, absent] at made
  obtain rfl := Option.some.inj made
  have created := Cluster.createStrips_created width
    (c := { s.cluster with widths := Function.update s.cluster.widths name (some width) }) h.dirs
    (h.fresh name absent).1 width
  generalize Cluster.createStrips _ name width width = c' at created
  have elsewhere : ∀ name' strip, name' ≠ name →
      c'.disk (stripPath name' strip) = s.cluster.disk (stripPath name' strip) :=
    fun name' strip other => created.disk _ (fun strip' same => other (stripPath_inj same).1)
  refine ⟨fun i => (created.dirs i).trans (h.dirs i), ?_, ?_, ?_, ?_⟩
  · intro name' width' known
    simp only [created.widths] at known
    by_cases same : name' = name
    · subst same
      rw [Function.update_self] at known
      obtain rfl := Option.some.inj known
      exact wide
    · rw [Function.update_of_ne same] at known
      exact h.wide name' width' known
  · intro name' width' strip known small
    simp only [created.widths] at known
    by_cases same : name' = name
    · subst same
      rw [Function.update_self] at known
      obtain rfl := Option.some.inj known
      obtain ⟨file, found, stored, empty⟩ := created.strips strip small
      exact ⟨file, [], found, created.width _ file found, stored, empty⟩
    · rw [Function.update_of_ne same] at known
      obtain ⟨file, content, found, rest⟩ := h.strips name' width' strip known small
      simp only [elsewhere name' strip same, created.others _ name' same]
      exact ⟨file, content, found, rest⟩
  · intro name' unknown
    simp only [created.widths] at unknown
    by_cases same : name' = name
    · subst same
      rw [Function.update_self] at unknown
      cases unknown
    · rw [Function.update_of_ne same] at unknown
      obtain ⟨noFile, blank⟩ := h.fresh name' unknown
      exact ⟨fun i => (created.others i name' same).trans (noFile i), blank⟩
  · intro name' width' b v known stored
    simp only [created.widths] at known
    by_cases same : name' = name
    · subst same
      have blank := (h.fresh name' absent).2 b
      simp only [blank] at stored
      cases stored
    · rw [Function.update_of_ne same] at known
      simp only [elsewhere name' _ same]
      exact h.bytes name' width' b v known stored

/-- Where a request for `addr` ends up. -/
theorem locate (h : Inv s) {name : String} {width addr size : Nat} (known : s.cluster.widths name = some width)
    (inside : addr % stripBytes + size ≤ stripBytes) (small : addr + stripBytes ≤ intMax) :
    (s.cluster.serverFor width addr).locate name addr size =
      some (stripPath name (stripOf width addr), stripPosition width addr) ∧
      ∃ content, s.cluster.disk (stripPath name (stripOf width addr)) = some content := by
  have wide := h.wide name width known
  obtain ⟨file, content, found, fileWidth, stored, onDisk⟩ :=
    h.strips name width (stripOf width addr) known (Nat.mod_lt _ wide)
  exact ⟨FileServer.locate_strip found fileWidth stored wide inside small, content, onDisk⟩

/-- One strip file is rewritten: the bytes of its strip have to be shown to be in it. -/
theorem store (h : Inv s) {name : String} {width strip : Nat} {content : List UInt8} {flat : Nat → Option UInt8}
    (known : s.cluster.widths name = some width)
    (own : ∀ b v, stripOf width b = strip → flat b = some v → content[stripPosition width b]? = some v)
    (rest : ∀ b, stripOf width b ≠ strip → flat b = s.flat name b) :
    Inv { cluster := { s.cluster with disk := Function.update s.cluster.disk (stripPath name strip) (some content) }
          flat := Function.update s.flat name flat } := by
  refine ⟨h.dirs, h.wide, ?_, ?_, ?_⟩
  · intro name' width' strip' known' small
    obtain ⟨file, content', found, fileWidth, stored, onDisk⟩ := h.strips name' width' strip' known' small
    by_cases same : stripPath name' strip' = stripPath name strip
    · exact ⟨file, content, found, fileWidth, stored, by simp only [same, Function.update_self]⟩
    · exact ⟨file, content', found, fileWidth, stored, by simp only [Function.update_of_ne same, onDisk]⟩
  · intro name' unknown
    obtain ⟨noFile, blank⟩ := h.fresh name' unknown
    have other : name' ≠ name := by
      rintro rfl
      rw [known] at unknown
      cases unknown
    exact ⟨noFile, by simp only [Function.update_of_ne other]; exact blank⟩
  · intro name' width' b v known' stored
    by_cases same : name' = name
    · subst same
      obtain rfl := Option.some.inj (known.symm.trans known')
      simp only [Function.update_self] at stored
      by_cases here : stripOf width b = strip
      · subst here
        exact ⟨content, by simp only [Function.update_self], own b v rfl stored⟩
      · rw [rest b here] at stored
        have differs : stripPath name' (stripOf width b) ≠ stripPath name' strip := fun eq => here (stripPath_inj eq).2
        simp only [Function.update_of_ne differs]
        exact h.bytes name' width b v known stored
    · simp only [Function.update_of_ne same] at stored
      have differs : stripPath name' (stripOf width' b) ≠ stripPath name strip := fun eq => same (stripPath_inj eq).1
      simp only [Function.update_of_ne differs]
      exact h.bytes name' width' b v known' stored

/-- An old byte of the strip that is rewritten. -/
theorem old_byte (h : Inv s) {name : String} {width b strip : Nat} {content : List UInt8} {v : UInt8}
    (known : s.cluster.widths name = some width) (onDisk : s.cluster.disk (stripPath name strip) = some content)
    (here : stripOf width b = strip) (stored : s.flat name b = some v) :
    content[stripPosition width b]? = some v := by
  obtain ⟨content', onDisk', byte⟩ := h.bytes name width b v known stored
  rw [here, onDisk] at onDisk'
  obtain rfl := Option.some.inj onDisk'
  exact byte

/-- Bytes of one strip at positions of one block are that far apart in the file. -/
theorem position_add {width addr b i : Nat} (inside : addr % stripBytes + i < stripBytes)
    (here : stripOf width b = stripOf width addr) (position : stripPosition width b = stripPosition width addr + i) :
    b = addr + i := by
  obtain ⟨strip, next⟩ := strip_add width _ _ inside
  exact stripPosition_inj (here.trans strip.symm) (position.trans next.symm)

theorem block_inside {addr : Nat} (aligned : addr % pfsBlockSizeInBytes = 0) :
    addr % stripBytes + pfsBlockSizeInBytes ≤ stripBytes := by
  simp only [stripBytes, stripSize, pfsBlockSizeInBytes] at *
  omega

theorem writeBlock (h : Inv s) {name : String} {addr : Nat} {data dirty : Nat → UInt8}
    (allowed : s.allowed (.writeBlock name addr data dirty)) :
    ∃ s', s.exec (.writeBlock name addr data dirty) = some (s', none) ∧ Inv s' := by
  obtain ⟨created, aligned, small⟩ := allowed
  obtain ⟨width, known⟩ := Option.isSome_iff_exists.mp created
  have inside := block_inside aligned
  obtain ⟨located, content, onDisk⟩ := h.locate known inside small
  simp only [exec, known, FileServer.writeBlock, located, onDisk, Option.bind_eq_bind, Option.bind_some]
  refine ⟨_, rfl, h.store known ?_ ?_⟩
  · intro b v here stored
    split at stored
    · next range =>
        obtain rfl := Option.some.inj stored
        have next := (strip_add width addr (b - addr) (by omega)).2
        rw [Nat.add_sub_cancel' range.1] at next
        rw [next]
        exact writeDirty_inside (by omega) range.2.2
    · next outside =>
        apply writeDirty_other
        · intro k less set position
          obtain rfl := position_add (by omega) here position
          exact outside ⟨by omega, by omega, by rwa [Nat.add_sub_cancel_left]⟩
        · exact h.old_byte known onDisk here stored
  · intro b there
    rw [if_neg]
    rintro ⟨low, high, -⟩
    have strip := (strip_add width addr (b - addr) (by omega)).1
    rw [Nat.add_sub_cancel' low] at strip
    exact there strip

theorem writeFile (h : Inv s) {name : String} {start : Nat} {data : List UInt8}
    (allowed : s.allowed (.writeFile name start data)) :
    ∃ s', s.exec (.writeFile name start data) = some (s', none) ∧ Inv s' := by
  obtain ⟨created, inside, small⟩ := allowed
  obtain ⟨width, known⟩ := Option.isSome_iff_exists.mp created
  obtain ⟨located, content, onDisk⟩ := h.locate known inside small
  simp only [exec, known, FileServer.writeFile, located, onDisk, Option.bind_eq_bind, Option.bind_some]
  refine ⟨_, rfl, h.store known ?_ ?_⟩
  · intro b v here stored
    split at stored
    · next range =>
        have next := (strip_add width start (b - start) (by omega)).2
        rw [Nat.add_sub_cancel' range.1] at next
        rw [next]
        exact fwrite_inside stored
    · next outside =>
        apply fwrite_other
        · by_contra within
          have position : stripPosition width b =
              stripPosition width start + (stripPosition width b - stripPosition width start) := by omega
          have range := position_add (by omega) here position
          exact outside ⟨by omega, by omega⟩
        · exact h.old_byte known onDisk here stored
  · intro b there
    rw [if_neg]
    rintro ⟨low, high⟩
    have strip := (strip_add width start (b - start) (by omega)).1
    rw [Nat.add_sub_cancel' low] at strip
    exact there strip

/-- What is read at the position of `addr` has every byte written there. -/
theorem fread_at (h : Inv s) {name : String} {width addr i : Nat} {content : List UInt8} {buffer : Nat → UInt8}
    {v : UInt8} (known : s.cluster.widths name = some width)
    (onDisk : s.cluster.disk (stripPath name (stripOf width addr)) = some content)
    (inside : addr % stripBytes + i < stripBytes) (stored : s.flat name (addr + i) = some v) :
    fread content (stripPosition width addr) buffer i = v := by
  obtain ⟨strip, next⟩ := strip_add width _ _ inside
  have byte := h.old_byte known onDisk strip stored
  rw [fread, ← next, byte, Option.getD_some]

theorem step (h : Inv s) {s' : StripedStore} (step : machine.Step s s') : Inv s' := by
  obtain ⟨request, allowed, served⟩ := step
  obtain ⟨⟨_, reply⟩, ran, rfl⟩ := Option.map_eq_some_iff.mp served
  clear served
  cases request with
  | createFile name width => exact h.createFile allowed.1 allowed.2.2.1 ran
  | writeBlock name addr data dirty =>
      obtain ⟨s'', ran', inv⟩ := h.writeBlock allowed
      obtain ⟨rfl, -⟩ := Prod.mk.inj (Option.some.inj (ran'.symm.trans ran))
      exact inv
  | readBlock name addr buffer =>
      simp only [exec, Option.bind_eq_bind, Option.bind_eq_some_iff, Option.some.injEq, Prod.mk.injEq] at ran
      obtain ⟨_, -, _, -, rfl, -⟩ := ran
      exact h
  | writeFile name start data =>
      obtain ⟨s'', ran', inv⟩ := h.writeFile allowed
      obtain ⟨rfl, -⟩ := Prod.mk.inj (Option.some.inj (ran'.symm.trans ran))
      exact inv
  | readFile name start size buffer =>
      simp only [exec, Option.bind_eq_bind, Option.bind_eq_some_iff, Option.some.injEq, Prod.mk.injEq] at ran
      obtain ⟨_, -, _, -, rfl, -⟩ := ran
      exact h

end Inv

/-- The file and the range a request reads. -/
def reads : StoreRequest → Option (String × Nat × Nat)
  | .readBlock name addr _ => some (name, addr, pfsBlockSizeInBytes)
  | .readFile name start size _ => some (name, start, size)
  | _ => none

/-- Server, strip file and position of a byte of a file. -/
def place (name : String) (width b : Nat) : Nat × String × Nat :=
  (stripOf width b % numFileServers, stripPath name (stripOf width b), stripPosition width b)

theorem accepted {s : StripedStore} (h : Inv s) {request : StoreRequest} (allowed : s.allowed request) :
    ∃ s' reply, s.exec request = some (s', reply) ∧
      ∀ name start size, reads request = some (name, start, size) →
        ∃ data, reply = some data ∧
          ∀ i, i < size → ∀ v, s.flat name (start + i) = some v → data i = v := by
  cases request with
  | createFile name width =>
      simp only [exec, Cluster.createFile, allowed.1, Option.map_some]
      exact ⟨_, _, rfl, nofun⟩
  | writeBlock name addr data dirty =>
      obtain ⟨s', ran, -⟩ := h.writeBlock allowed
      exact ⟨s', none, ran, nofun⟩
  | readBlock name addr buffer =>
      obtain ⟨created, aligned, small⟩ := allowed
      obtain ⟨width, known⟩ := Option.isSome_iff_exists.mp created
      have inside := Inv.block_inside aligned
      obtain ⟨located, content, onDisk⟩ := h.locate known inside small
      simp only [exec, known, FileServer.readBlock, located, onDisk, Option.bind_eq_bind, Option.bind_some]
      refine ⟨_, _, rfl, ?_⟩
      rintro _ _ _ ⟨⟩
      exact ⟨_, rfl, fun i less v stored => h.fread_at known onDisk (by omega) stored⟩
  | writeFile name start data =>
      obtain ⟨s', ran, -⟩ := h.writeFile allowed
      exact ⟨s', none, ran, nofun⟩
  | readFile name start size buffer =>
      obtain ⟨created, inside, small⟩ := allowed
      obtain ⟨width, known⟩ := Option.isSome_iff_exists.mp created
      obtain ⟨located, content, onDisk⟩ := h.locate known inside small
      simp only [exec, known, FileServer.readFile, located, onDisk, Option.bind_eq_bind, Option.bind_some]
      refine ⟨_, _, rfl, ?_⟩
      rintro _ _ _ ⟨⟩
      exact ⟨_, rfl, fun i less v stored => h.fread_at known onDisk (by omega) stored⟩

/-- In every reachable state of the servers every allowed request is accepted, a
    read returns the byte last written at each position, and no two bytes of the
    files share a place. -/
theorem reachable_flat {s : StripedStore} (reach : Reachable Initial machine.Step s) :
    (∀ request, s.allowed request → ∃ s' reply, s.exec request = some (s', reply) ∧
      ∀ name start size, reads request = some (name, start, size) →
        ∃ data, reply = some data ∧
          ∀ i, i < size → ∀ v, s.flat name (start + i) = some v → data i = v) ∧
    ∀ name width b name' width' b', s.cluster.widths name = some width → s.cluster.widths name' = some width' →
      place name width b = place name' width' b' → name = name' ∧ b = b' := by
  have inv := reach.invariant Inv (fun _ => Inv.initial) (fun _ _ inv => inv.step)
  refine ⟨fun request allowed => accepted inv allowed, ?_⟩
  intro name width b name' width' b' known known' same
  obtain ⟨-, paths, positions⟩ : _ ∧ _ ∧ _ := by simpa only [place, Prod.mk.injEq] using same
  obtain ⟨rfl, strips⟩ := stripPath_inj paths
  obtain rfl := Option.some.inj (known.symm.trans known')
  exact ⟨rfl, stripPosition_inj strips positions⟩

/-- No file yet. -/
def blank : StripedStore := ⟨Cluster.start, fun _ _ => none⟩

/-- A file of two strips, and three bytes written to its second strip. -/
def created : StripedStore := ((blank.exec (.createFile "f" 2)).get rfl).1

def written : StripedStore := ((created.exec (.writeFile "f" 1500 [7, 8, 9])).get rfl).1

theorem reachable_flat_written : ∃ s' data,
    written.exec (.readFile "f" 1500 3 (fun _ => 0)) = some (s', some data) ∧ data 1 = 8 := by
  have start : Reachable Initial machine.Step blank := Reachable.init ⟨rfl, fun _ _ => rfl⟩
  have made : Reachable Initial machine.Step created :=
    start.tail ⟨.createFile "f" 2, ⟨rfl, by decide, by decide, by decide⟩, rfl⟩
  have reach : Reachable Initial machine.Step written :=
    made.tail ⟨.writeFile "f" 1500 [7, 8, 9], ⟨rfl, by decide, by decide⟩, rfl⟩
  obtain ⟨s', reply, ran, answer⟩ := (reachable_flat reach).1 (.readFile "f" 1500 3 (fun _ => 0))
    ⟨rfl, by decide, by decide⟩
  obtain ⟨data, rfl, bytes⟩ := answer "f" 1500 3 rfl
  exact ⟨s', data, ran, bytes 1 (by decide) 8 rfl⟩

end StripedStore

end PFS
