import KeyLime.Forward

/-!
# The worker's tasks

`task_t`, the files and the command line that belong to one, and the header
of the frame that carries its result. The shell takes the file name for one
word, itself, only when there is nothing in it that means something to it
(`plainName`), and the command is formatted into 1024 bytes.

Both conditions together (`runsProgram`) are what it takes for `tasking` to run
the file it was given, with the output in the file that is sent back. The name
comes twice in the command line, behind `./` and behind `>`, in two different
positions for a shell: a `#` is harmless in the first and begins a comment in the
second, a leading slash is harmless in the first and leads to another directory
in the second. What a shell does with other names is not modelled; where it
matters, it is an input.
-/

namespace KeyLime

def numThread : Nat := 5
def maxConcurrentTask : Nat := 15
def fileBufferSize : Nat := 4096

instance : NeZero numThread := ⟨by decide⟩

/-- `"_OUTPUT.OUTPUT"`. -/
def outputFileFormat : Bytes := [95, 79, 85, 84, 80, 85, 84, 46, 79, 85, 84, 80, 85, 84]

/-- `"Bad executable: "`. -/
def badExecMessage : Bytes := [66, 97, 100, 32, 101, 120, 101, 99, 117, 116, 97, 98, 108, 101, 58, 32]

/-- `task_t`. `seq` is history: how many tasks had been accepted before. -/
structure WorkerTask where
  seq : Nat
  inputFilename : Option Bytes
  outputFilename : Option Bytes
  outputFd : Int
deriving DecidableEq, Repr

/-- `task_copy_constructor`: the strings are shared, and never written. -/
def taskCopyConstructor (elem : WorkerTask) : WorkerTask where
  seq := elem.seq
  inputFilename := elem.inputFilename
  outputFilename := elem.outputFilename
  outputFd := elem.outputFd

def endTask : WorkerTask := { seq := 0, inputFilename := none, outputFilename := none, outputFd := 0 }

def outputName (name : Bytes) : Bytes := name ++ outputFileFormat

/-- `create_output_file`; a failed `open` goes unnoticed. -/
def createOutputFile (k : Kernel) (name : Bytes) (ok : Bool) : Int × Bytes × Kernel :=
  let (fd, k) := k.openWithAllPermission (outputName name) ok
  (fd, outputName name, k)

def createHeader (name : Bytes) : Bytes := putVerb ++ [space] ++ name ++ [newline]

/-- `lseek(fd, 0, SEEK_END)` as a `size_t`. -/
def endOffset (k : Kernel) (fd : Int) : Nat :=
  match k.desc fd with
  | some (.file path _) => ((k.store path).getD []).length
  | _ => 2 ^ 64 - 1

/-! ## The command line -/

/-- `sprintf(buffer, "./%s >%s 2>&1", …)`. -/
def commandLine (name output : Bytes) : Bytes :=
  [46, 47] ++ name ++ [space, 62] ++ output ++ [space, 50, 62, 38, 49]

/-- Blanks, quotes, operators, expansions and patterns: bytes that mean
something to the shell wherever they stand in a word. -/
def shellBytes : Bytes :=
  [0, 9, 10, 32, 34, 36, 38, 39, 40, 41, 42, 59, 60, 62, 63, 91, 92, 96, 123, 124, 125]

/-- The shell reads the name as itself, alone and behind `./`: a comment, a
home directory and an absolute path differ in their first byte. -/
def plainName (name : Bytes) : Bool :=
  name.all (fun b => !shellBytes.contains b) && !([35, 47, 126].contains (name.headD 47))

/-- The command runs the named program, with its output in the output file. -/
def runsProgram (name : Bytes) : Bool :=
  plainName name && (commandLine name (outputName name)).length < 1024

@[simp] theorem taskCopyConstructor_eq (t : WorkerTask) : taskCopyConstructor t = t := rfl

end KeyLime
