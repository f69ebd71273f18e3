import NoobKernel.Model.Namei
import NoobKernel.Model.Time

/-! # `sys_execve`

The system call in three parts: `prepare` reads the program and its arguments, `loadImage`
releases the old user memory and maps the new program, and `install` makes its stack. An error
after the release is fatal to the process in `loadImage`, where `execve_die` follows, but not in
`install`. -/

namespace NoobKernel.Exec

open Library Life

abbrev stackPages : ℕ := 128
abbrev stackBot : ℕ := userTop - stackPages * pageSize
abbrev interpBase : ℕ := 0x400000

/-- The difference of two unsigned words. -/
def sub64 (a b : ℕ) : ℕ := (a + wordSize - b % wordSize) % wordSize

/-- The string in a buffer. -/
def cstring (buf : List ℕ) : List ℕ := buf.takeWhile (· ≠ 0)

/-- The part of a path after its last slash. -/
def baseName (path : List ℕ) : List ℕ := (path.reverse.takeWhile (· ≠ slash)).reverse

/-- The part of a path up to its last slash. -/
def dirName (path : List ℕ) : List ℕ := path.take (path.length - (baseName path).length)

/-! ## Headers -/

/-- A number in a header, with its lowest byte first. -/
def field (offset n : ℕ) (buf : List ℕ) : ℕ := Time.ofU64 ((buf.drop offset).take n)

/-- `elf64_ehdr_t`. -/
structure Ehdr where
  machine : ℕ
  entry : ℕ
  phoff : ℕ
  phentsize : ℕ
  phnum : ℕ
deriving DecidableEq, Repr

abbrev ehdrSize : ℕ := 64

def parseEhdr (buf : List ℕ) : Ehdr where
  machine := field 18 2 buf
  entry := field 24 8 buf
  phoff := field 32 8 buf
  phentsize := field 54 2 buf
  phnum := field 56 2 buf

def hasMagic (buf : List ℕ) : Bool := ehdrSize ≤ buf.length && buf.take 4 == [0x7f, 69, 76, 70]

/-- `elf64_phdr_t`. -/
structure Phdr where
  type : ℕ
  offset : ℕ
  vaddr : ℕ
  filesz : ℕ
  memsz : ℕ
  align : ℕ
deriving DecidableEq, Repr

abbrev phdrSize : ℕ := 56
abbrev ptLoad : ℕ := 1
abbrev ptInterp : ℕ := 3
abbrev ptTls : ℕ := 4
abbrev ptPhdr : ℕ := 6

def parsePhdr (buf : List ℕ) : Phdr where
  type := field 0 4 buf
  offset := field 8 8 buf
  vaddr := field 16 8 buf
  filesz := field 32 8 buf
  memsz := field 40 8 buf
  align := field 48 8 buf

/-- A read of a program header at the position of the file. -/
def nextPhdr (f : OpenFile) : Option Phdr × OpenFile :=
  match fileRead phdrSize f with
  | (none, f) => (none, f)
  | (some buf, f) => if buf.length < phdrSize then (none, f) else (some (parsePhdr buf), f)

/-- A read of the `i`th program header. -/
def readPhdr (ehdr : Ehdr) (i : ℕ) (f : OpenFile) : Option Phdr × OpenFile :=
  nextPhdr (fileLseek ((ehdr.phoff + i * ehdr.phentsize) % wordSize) f)

/-- The loop that looks for the path of the dynamic linker. -/
def scanInterp (ehdr : Ehdr) : List ℕ → OpenFile → List ℕ × OpenFile
  | [], f => ([], f)
  | i :: is, f =>
    match readPhdr ehdr i f with
    | (none, f) => scanInterp ehdr is f
    | (some phdr, f) =>
      if phdr.type = ptInterp ∧ 0 < phdr.filesz ∧ phdr.filesz < 256 then
        match fileRead phdr.filesz (fileLseek phdr.offset f) with
        | (some (b :: buf), f) => (cstring (b :: buf), f)
        | (_, f) => scanInterp ehdr is f
      else scanInterp ehdr is f

/-- The segment for thread-local data: its size, alignment and size in the file, and the object
that holds its contents. -/
structure Tls where
  memsz : ℕ
  align : ℕ
  filesz : ℕ
  data : Option (ℕ × List ℕ)

/-- The loop that looks for the segment for thread-local data. -/
def scanTls (ehdr : Ehdr) : List ℕ → OpenFile → Objects → Tls × OpenFile × Objects
  | [], f, h => (⟨0, 1, 0, none⟩, f, h)
  | i :: is, f, h =>
    match readPhdr ehdr i f with
    | (none, f) => scanTls ehdr is f h
    | (some phdr, f) =>
      if phdr.type = ptTls then
        let align := if phdr.align ≠ 0 then phdr.align else 1
        match kmalloc phdr.filesz h with
        | (none, h) => (⟨phdr.memsz, align, phdr.filesz, none⟩, f, h)
        | (some data, h) =>
          let r := fileRead phdr.filesz (fileLseek phdr.offset f)
          (⟨phdr.memsz, align, phdr.filesz, some (data, r.1.getD [])⟩, r.2, h)
      else scanTls ehdr is f h

/-! ## Scripts -/

def isBlank (b : ℕ) : Bool := b = 32 ∨ b = 9

def isNewline (b : ℕ) : Bool := b = 10 ∨ b = 13

/-- The interpreter and the argument that the first line of a script names. -/
def parseShebang (header : List ℕ) : Option (List ℕ × List ℕ) :=
  let line := (header.drop 2).dropWhile isBlank
  let interp := (line.takeWhile (fun b => !isBlank b && !isNewline b)).take 254
  let rest := line.drop interp.length
  let arg := if rest.head?.any isBlank then
      ((rest.dropWhile isBlank).takeWhile (fun b => !isNewline b)).take 126
    else []
  if line = [] ∨ line.head?.any isNewline then none
  else if interp = [] then none
  else some (cstring interp, cstring arg)

/-- The directory in which a path starts. -/
def baseOf (path : List ℕ) (p : Proc) : Option ℕ := if path.head? = some slash then none else p.pwd

/-- The interpreter of a script, at its path or in the directory of the script. -/
def openInterpreter (path script : List ℕ) (p : Proc) (s : State) : Except Err OpenFile × State :=
  match vfsOpenCwd path (baseOf path p) s with
  | (.ok f, s) => (.ok f, s)
  | (.error e, s) =>
    let fallback := dirName script ++ baseName path
    if slash ∈ script ∧ 0 < fallback.length ∧ fallback.length < 256 then
      vfsOpenCwd fallback none s
    else (.error e, s)

/-- The file to be executed and the start of its contents. For a script this is the interpreter,
with the script and the argument for it. -/
structure Program where
  file : OpenFile
  header : List ℕ
  path : List ℕ
  script : Option (List ℕ × List ℕ)

def readHeader (f : OpenFile) : List ℕ × OpenFile :=
  let r := fileRead 256 f
  (r.1.getD [], r.2)

def openProgram (filename : ℕ) (p : Proc) (s : State) : Outcome (Except Err Program × State) :=
  match Vm.copyinstr p.pagetable filename 256 s.mem with
  | none => .ok (.error ⟨-efault, by decide⟩, s)
  | some path =>
    match vfsOpenCwd path (baseOf path p) s with
    | (.error e, s) => .ok (.error e, s)
    | (.ok f, s) =>
      let r := readHeader f
      if r.1.take 2 = [35, 33] then do
        let s ← filePut r.2 s
        match parseShebang r.1 with
        | none => .ok (.error ⟨-enoexec, by decide⟩, s)
        | some (interp, arg) =>
          match openInterpreter interp path p s with
          | (.error e, s) => .ok (.error e, s)
          | (.ok f, s) =>
            let r := readHeader f
            .ok (.ok ⟨r.2, r.1, interp, some (arg, path)⟩, s)
      else .ok (.ok ⟨r.2, r.1, path, none⟩, s)

/-! ## Arguments -/

/-- An array of strings in the kernel heap: the object of the array, and the objects of the
strings with their contents. -/
structure Saved where
  array : ℕ
  strs : List (ℕ × List ℕ)
deriving DecidableEq, Repr

/-- The strings of an array, which is empty for `NULL`. -/
def strings (saved : Option Saved) : List (List ℕ) := saved.elim [] (fun a => a.strs.map Prod.snd)

/-- The first loop of `copyin_str_array`: the pointers up to the first `NULL`. -/
def countStrs (pt uarray : ℕ) (m : Vm.Memory) : List ℕ → Option (List ℕ)
  | [] => some []
  | i :: is =>
    let r := Vm.copyin pt ((uarray + i * 8) % wordSize) 8 m
    if r.1 < 0 then none
    else if Time.ofU64 r.2 = 0 then some []
    else (countStrs pt uarray m is).map (Time.ofU64 r.2 :: ·)

/-- Strings that have been stored are freed. -/
def freeStrs : List (ℕ × List ℕ) → Objects → Outcome Objects
  | [], h => .ok h
  | str :: strs, h => do
      let h ← kfree str.1 h
      freeStrs strs h

/-- The second loop of `copyin_str_array`, which has stored `strs`. A string that cannot be read
is taken to be empty. -/
def copyStrs (pt : ℕ) (m : Vm.Memory) (array : ℕ) :
    List ℕ → List (ℕ × List ℕ) → Objects → Outcome (Except Err (Option Saved) × Objects)
  | [], strs, h => .ok (.ok (some ⟨array, strs⟩), h)
  | ptr :: ptrs, strs, h =>
    let str := (Vm.copyinstr pt ptr 256 m).getD []
    match kmalloc (str.length + 1) h with
    | (none, h) => do
        let h ← freeStrs strs h
        let h ← kfree array h
        .ok (.error ⟨-enomem, neg_enomem⟩, h)
    | (some a, h) => copyStrs pt m array ptrs (strs ++ [(a, str)]) h

def copyinStrArray (pt uarray max : ℕ) (m : Vm.Memory) (h : Objects) :
    Outcome (Except Err (Option Saved) × Objects) :=
  if uarray = 0 then .ok (.ok none, h)
  else
    match countStrs pt uarray m (List.range max) with
    | none => .ok (.error ⟨-efault, by decide⟩, h)
    | some [] => .ok (.ok none, h)
    | some (ptr :: ptrs) =>
      match kmalloc ((ptrs.length + 1) * 8) h with
      | (none, h) => .ok (.error ⟨-enomem, neg_enomem⟩, h)
      | (some array, h) => copyStrs pt m array (ptr :: ptrs) [] h

/-! ## Preparation -/

/-- What is known of the new program before the old one is released. -/
structure Prepared where
  file : OpenFile
  ehdr : Ehdr
  path : List ℕ
  script : Option (List ℕ × List ℕ)
  interpPath : List ℕ
  argv : Option Saved
  envp : Option Saved
  tls : Tls

/-- The arguments of the new program. A script gets the interpreter, its argument and the script
in place of the first one. -/
def Prepared.args (x : Prepared) : List (List ℕ) :=
  match x.script with
  | none => strings x.argv
  | some ([], script) => x.path :: script :: (strings x.argv).tail
  | some (arg, script) => x.path :: arg :: script :: (strings x.argv).tail

/-- An error of `prepare` after the program has been opened. -/
def giveUp (f : OpenFile) (e : Err) (s : State) : Outcome (Except Err Prepared × State) := do
  let s ← filePut f s
  .ok (.error e, s)

/-- `sys_execve` up to the release of the old user memory. -/
def prepare (filename argv envp : ℕ) (p : Proc) (s : State) :
    Outcome (Except Err Prepared × State) := do
  match ← openProgram filename p s with
  | (.error e, s) => .ok (.error e, s)
  | (.ok prog, s) =>
    let ehdr := parseEhdr prog.header
    if hasMagic prog.header = false ∨ ehdr.machine ≠ 0xf3 then
      giveUp prog.file ⟨-enoexec, by decide⟩ s
    else
      let r := scanInterp ehdr (List.range ehdr.phnum) prog.file
      match ← copyinStrArray p.pagetable argv 32 s.mem s.obj with
      | (.error e, obj) => giveUp r.2 e { s with obj }
      | (.ok savedArgv, obj) =>
        match ← copyinStrArray p.pagetable envp 32 s.mem obj with
        | (.error e, obj) => giveUp r.2 e { s with obj }
        | (.ok savedEnvp, obj) =>
          let t := scanTls ehdr (List.range ehdr.phnum) r.2 obj
          .ok (.ok ⟨t.2.1, ehdr, prog.path, prog.script, r.1, savedArgv, savedEnvp, t.1⟩,
            { s with obj := t.2.2 })

/-! ## Loading -/

/-- The pages of a range. -/
def pagesOf (start stop : ℕ) : List ℕ :=
  (List.range ((stop - start + (pageSize - 1)) / pageSize)).map (fun i => start + i * pageSize)

/-- A new page is mapped. -/
def mapFresh (pt perm va : ℕ) (m : Vm.Memory) : ℤ × Vm.Memory :=
  match Vm.kzalloc m with
  | (none, m) => (-enomem, m)
  | (some pa, m) =>
    let r := Vm.mappages pt va pa 1 perm m
    if r.1 ≠ 0 then (-enomem, Vm.kfree pa r.2) else (0, r.2)

def mapZeroedUserPages (pt start size perm : ℕ) (m : Vm.Memory) : ℤ × Vm.Memory :=
  Vm.forEach (mapFresh pt perm) (pagesOf start ((start + alignUp size pageSize) % wordSize)) m

/-- The loop that reads the contents of a segment; each of its `fuel` rounds copies a byte at
least. -/
def readSegment (pt : ℕ) : ℕ → ℕ → ℕ → OpenFile → Vm.Memory → ℤ × OpenFile × Vm.Memory
  | 0, _, _, f, m => (0, f, m)
  | fuel + 1, remaining, dst, f, m =>
    if remaining = 0 then (0, f, m)
    else
      match fileRead (min remaining 512) f with
      | (some (b :: buf), f) =>
        let r := Vm.copyout pt dst (b :: buf) m
        if r.1 < 0 then (-enomem, f, r.2)
        else readSegment pt fuel (remaining - (buf.length + 1))
          ((dst + (buf.length + 1)) % wordSize) f r.2
      | (_, f) => (0, f, m)

/-- One segment is mapped and read. -/
def loadSegment (pt base : ℕ) (phdr : Phdr) (f : OpenFile) (m : Vm.Memory) :
    Except Err ℕ × OpenFile × Vm.Memory :=
  let va := (base + alignDown phdr.vaddr pageSize) % wordSize
  let stop := (base + alignUp ((phdr.vaddr + phdr.memsz) % wordSize) pageSize) % wordSize
  if stop > stackBot ∨ stop > trapframe ∧ va < trapframe + pageSize then
    (.error ⟨-einval, by decide⟩, f, m)
  else
    let perm := Vm.pteU ||| Vm.pteR ||| Vm.pteW ||| Vm.pteX
    let r := Vm.forEach (mapFresh pt perm) (pagesOf va stop) m
    if r.1 ≠ 0 then (.error ⟨-enomem, neg_enomem⟩, f, r.2)
    else if phdr.filesz = 0 then (.ok stop, f, r.2)
    else
      let r := readSegment pt phdr.filesz phdr.filesz ((base + phdr.vaddr) % wordSize)
        (fileLseek phdr.offset f) r.2
      if r.1 ≠ 0 then (.error ⟨-enomem, neg_enomem⟩, r.2) else (.ok stop, r.2)

/-- The loop of `load_elf` over the program headers. -/
def loadSegments (pt base : ℕ) (ehdr : Ehdr) :
    List ℕ → ℕ → OpenFile → Vm.Memory → Except Err ℕ × OpenFile × Vm.Memory
  | [], maxVa, f, m => (.ok maxVa, f, m)
  | i :: is, maxVa, f, m =>
    match readPhdr ehdr i f with
    | (none, f) => loadSegments pt base ehdr is maxVa f m
    | (some phdr, f) =>
      if phdr.type ≠ ptLoad then loadSegments pt base ehdr is maxVa f m
      else
        match loadSegment pt base phdr f m with
        | (.error e, f, m) => (.error e, f, m)
        | (.ok stop, f, m) => loadSegments pt base ehdr is (max maxVa stop) f m

/-- `load_elf` without the address of the program headers. It returns the end of the segments. -/
def loadElf (pt base : ℕ) (ehdr : Ehdr) (f : OpenFile) (m : Vm.Memory) :
    Except Err ℕ × OpenFile × Vm.Memory :=
  match loadSegments pt base ehdr (List.range ehdr.phnum) 0 f m with
  | (.error e, f, m) => (.error e, f, m)
  | (.ok maxVa, f, m) =>
    if maxVa = 0 then (.error ⟨-enoexec, by decide⟩, f, m) else (.ok maxVa, f, m)

/-- The loop that looks for the segment with the program headers. -/
def findPhdrs (ehdr : Ehdr) (base : ℕ) : ℕ → OpenFile → Option ℕ × OpenFile
  | 0, f => (none, f)
  | n + 1, f =>
    match nextPhdr f with
    | (none, f) => findPhdrs ehdr base n f
    | (some phdr, f) =>
      if phdr.type = ptLoad ∧ phdr.offset ≤ ehdr.phoff ∧
          ehdr.phoff < (phdr.offset + phdr.filesz) % wordSize then
        (some ((base + phdr.vaddr + (ehdr.phoff - phdr.offset)) % wordSize), f)
      else findPhdrs ehdr base n f

/-- The loop that looks for a `PT_PHDR` entry. -/
def findPtPhdr (ehdr : Ehdr) (base : ℕ) : List ℕ → OpenFile → Option ℕ × OpenFile
  | [], f => (none, f)
  | i :: is, f =>
    match readPhdr ehdr i f with
    | (none, f) => (none, f)
    | (some phdr, f) =>
      if phdr.type = ptPhdr then (some ((base + phdr.vaddr) % wordSize), f)
      else findPtPhdr ehdr base is f

/-- The address of the program headers in user memory. -/
def phdrAddr (ehdr : Ehdr) (base : ℕ) (f : OpenFile) : ℕ × OpenFile :=
  let r := findPhdrs ehdr base ehdr.phnum (fileLseek ehdr.phoff f)
  let r' := findPtPhdr ehdr base (List.range ehdr.phnum) r.2
  (r'.1.getD (r.1.getD ((base + ehdr.phoff) % wordSize)), r'.2)

/-- The dynamic linker, at its path or in `/glibc/lib`. -/
def openLinker (interpPath : List ℕ) (s : State) : Except Err OpenFile × State :=
  match vfsOpenCwd interpPath none s with
  | (.ok f, s) => (.ok f, s)
  | (.error e, s) =>
    let fallback := [47, 103, 108, 105, 98, 99, 47, 108, 105, 98, 47] ++ baseName interpPath
    if fallback.length < 256 then vfsOpenCwd fallback none s else (.error e, s)

/-- A new program in user memory. -/
structure Image where
  entry : ℕ
  phdr : ℕ
  phnum : ℕ
  interpEntry : Option ℕ
  brkEnd : ℕ
  tcb : ℕ
deriving DecidableEq, Repr

abbrev tlsTcbSize : ℕ := 0x70

/-- The pages for thread-local data and the address of the control block. That they cannot be
mapped is no error. Bytes of the object that were not read are taken to be zero. -/
def mapTls (pt : ℕ) (tls : Tls) (m : Vm.Memory) : ℕ × Vm.Memory :=
  if tls.memsz = 0 then (0, m)
  else
    let total := alignUp ((tls.memsz + tlsTcbSize) % wordSize) pageSize
    let base := sub64 stackBot total
    let r := mapZeroedUserPages pt base total (Vm.pteR ||| Vm.pteW ||| Vm.pteU) m
    if r.1 ≠ 0 then (0, r.2)
    else
      let tdata := sub64 ((base + total) % wordSize) (tls.memsz + tlsTcbSize)
      let m := match tls.data with
        | none => r.2
        | some (_, data) =>
          (Vm.copyout pt tdata (data ++ List.replicate (tls.filesz - data.length) 0) r.2).2
      (alignDown (sub64 ((base + total) % wordSize) tlsTcbSize) tls.align, m)

/-- The dynamic linker is loaded. -/
def loadLinker (pt : ℕ) (interpPath : List ℕ) (s : State) : Outcome (Option (ℕ × ℕ) × State) :=
  match openLinker interpPath s with
  | (.error _, s) => .ok (none, s)
  | (.ok f, s) =>
    let r := fileRead ehdrSize f
    if hasMagic (r.1.getD []) = false then do
      let s ← filePut r.2 s
      .ok (none, s)
    else
      let ehdr := parseEhdr (r.1.getD [])
      match loadElf pt interpBase ehdr r.2 s.mem with
      | (.error _, f, mem) => do
          let s ← filePut f { s with mem }
          .ok (none, s)
      | (.ok maxVa, f, mem) => do
          let s ← filePut f { s with mem }
          .ok (some ((interpBase + ehdr.entry) % wordSize, maxVa), s)

/-- The old user memory is released and the new program loaded. Without an image the process
ends in `execve_die`. -/
def loadImage (p : Proc) (x : Prepared) (s : State) : Outcome (Option Image × State) := do
  let mem ← uvmFreeUserPages p.pagetable s.mem
  match loadElf p.pagetable 0 x.ehdr x.file mem with
  | (.error _, f, mem) => do
      let s ← filePut f { s with mem }
      .ok (none, s)
  | (.ok maxVa, f, mem) => do
      let r := phdrAddr x.ehdr 0 f
      let s ← filePut r.2 { s with mem }
      if x.interpPath = [] then
        let t := mapTls p.pagetable x.tls s.mem
        .ok (some ⟨x.ehdr.entry, r.1, x.ehdr.phnum, none, maxVa, t.1⟩, { s with mem := t.2 })
      else
        match ← loadLinker p.pagetable x.interpPath s with
        | (none, s) => .ok (none, s)
        | (some (entry, interpMax), s) =>
          let t := mapTls p.pagetable x.tls s.mem
          .ok (some ⟨x.ehdr.entry, r.1, x.ehdr.phnum, some entry, max maxVa interpMax, t.1⟩,
            { s with mem := t.2 })

/-! ## The stack -/

/-- The stack is mapped, unless its lowest page is already. -/
def mapStack (pt : ℕ) (m : Vm.Memory) : ℤ × Vm.Memory :=
  if Vm.walkaddr pt stackBot m = 0 then
    mapZeroedUserPages pt stackBot (stackPages * pageSize) (Vm.pteR ||| Vm.pteW ||| Vm.pteU) m
  else (0, m)

/-- Copies to user memory that end with the first one that fails. -/
def copyouts (pt : ℕ) : List (ℕ × List ℕ) → Vm.Memory → Bool × Vm.Memory
  | [], m => (true, m)
  | (va, src) :: rest, m =>
    let r := Vm.copyout pt va src m
    if r.1 < 0 then (false, r.2) else copyouts pt rest r.2

/-- Copies to user memory whose results are not looked at. -/
def copyoutsAnyway (pt : ℕ) (writes : List (ℕ × List ℕ)) (m : Vm.Memory) : Vm.Memory :=
  writes.foldl (fun m w => (Vm.copyout pt w.1 w.2 m).2) m

/-- The places of strings below `sp`, and the new `sp`. -/
def placeStrs : List (List ℕ) → ℕ → List (ℕ × List ℕ) × ℕ
  | [], sp => ([], sp)
  | str :: strs, sp =>
    let sp := sub64 sp (str.length + 1)
    let r := placeStrs strs sp
    ((sp, str ++ [0]) :: r.1, r.2)

/-- Consecutive entries from an address on. -/
def placeFrom : ℕ → List (List ℕ) → List (ℕ × List ℕ)
  | _, [] => []
  | va, src :: rest => (va, src) :: placeFrom ((va + src.length) % wordSize) rest

/-- The auxiliary vector. -/
def auxv (image : Image) (rand : ℕ) : List (List ℕ) :=
  let entry (type value : ℕ) := Time.u64 type ++ Time.u64 value
  [entry 3 image.phdr, entry 5 image.phnum, entry 4 phdrSize, entry 6 pageSize] ++
    (match image.interpEntry with
      | none => []
      | some _ => [entry 7 interpBase, entry 9 image.entry]) ++
    [entry 25 rand, entry 0 0]

/-- An array of pointers with its `NULL`, whose copy is not looked at. -/
def storePtrs (pt base : ℕ) (ptrs : List ℕ) (m : Vm.Memory) : Bool × Vm.Memory :=
  let r := copyouts pt (placeFrom base (ptrs.map Time.u64)) m
  if r.1 = false then r
  else (true, (Vm.copyout pt ((base + ptrs.length * 8) % wordSize) (Time.u64 0) r.2).2)

/-- The auxiliary vector, the arrays of pointers and `argc` below `rand`. -/
def storeVectors (pt : ℕ) (aux : List (List ℕ)) (argPtrs envPtrs : List ℕ) (rand : ℕ)
    (m : Vm.Memory) : Option ℕ × Vm.Memory :=
  let auxBase := sub64 rand (aux.length * 16)
  let m := copyoutsAnyway pt (placeFrom auxBase aux) m
  let envBase := sub64 auxBase ((envPtrs.length + 1) * 8)
  let r := storePtrs pt envBase envPtrs m
  if r.1 = false then (none, r.2)
  else
    let argBase := sub64 envBase ((argPtrs.length + 1) * 8)
    let r := storePtrs pt argBase argPtrs r.2
    if r.1 = false then (none, r.2)
    else
      let sp := sub64 argBase 8
      let r := Vm.copyout pt sp (Time.u64 argPtrs.length) r.2
      if r.1 < 0 then (none, r.2) else (some sp, r.2)

/-- The stack of a new program, from the strings down to `argc`. It returns the stack pointer, or
nothing if a copy fails. -/
def buildStack (pt : ℕ) (image : Image) (args env : List (List ℕ)) (m : Vm.Memory) :
    Option ℕ × Vm.Memory :=
  let a := placeStrs args userTop
  let e := placeStrs env a.2
  let rand := sub64 e.2 16
  let r := copyouts pt (a.1 ++ e.1 ++ [(rand, List.replicate 16 0)]) m
  if r.1 = false then (none, r.2)
  else storeVectors pt (auxv image rand) (a.1.map Prod.fst) (e.1.map Prod.fst) rand r.2

/-! ## The system call -/

/-- The registers with which the new program starts. -/
structure Start where
  epc : ℕ
  sp : ℕ
  tp : ℕ
  a0 : ℕ
deriving DecidableEq, Repr

/-- How the system call ends: it returns an error, starts the new program or ends the process. -/
inductive Result where
  | error (e : Err)
  | started (image : Image) (start : Start)
  | died
deriving DecidableEq, Repr

/-- The size of the array of arguments. -/
def Prepared.argvSize (x : Prepared) : ℕ :=
  if x.script.isSome then x.args.length * 8 else (x.args.length + 1) * 8

/-- `sys_execve` after the new program has been loaded. -/
def install (p : Proc) (x : Prepared) (image : Image) (s : State) : Outcome (Result × State) :=
  let env := strings x.envp
  let r := mapStack p.pagetable s.mem
  let s := { s with mem := r.2 }
  if r.1 ≠ 0 then .ok (.error ⟨-enomem, neg_enomem⟩, s)
  else
    match kmalloc x.argvSize s.obj with
    | (none, obj) => .ok (.error ⟨-enomem, neg_enomem⟩, { s with obj })
    | (some argvStrs, obj) =>
      match kmalloc ((x.args.length + env.length) * 8) obj with
      | (none, obj) => do
          let obj ← kfree argvStrs obj
          .ok (.error ⟨-enomem, neg_enomem⟩, { s with obj })
      | (some argStrPtrs, obj) => do
          let r := buildStack p.pagetable image x.args env s.mem
          let obj ← kfree argvStrs obj
          let obj ← kfree argStrPtrs obj
          match r.1 with
          | none => .ok (.error ⟨-enomem, neg_enomem⟩, { s with mem := r.2, obj })
          | some sp => do
              let obj ← x.tls.data.elim (.ok obj) (fun data => kfree data.1 obj)
              .ok (.started image
                ⟨image.interpEntry.getD image.entry, sp, image.tcb, x.args.length⟩,
                { s with mem := r.2, obj })

/-- `execve_die`. -/
def execveDie (p : Proc) (s : State) : Outcome (Result × Proc × State) := do
  let kernel ← fdTableFree p.fdTable s.toKernel
  .ok (.died, { p with fdTable := none }, { s with toKernel := kernel })

def sysExecve (filename argv envp : ℕ) (p : Proc) (s : State) :
    Outcome (Result × Proc × State) := do
  match ← prepare filename argv envp p s with
  | (.error e, s) => .ok (.error e, p, s)
  | (.ok x, s) =>
    match ← loadImage p x s with
    | (none, s) => execveDie p s
    | (some image, s) => do
        let r ← install p x image s
        .ok (r.1, p, r.2)

end NoobKernel.Exec
