import OperatingSystem.Fs.Mount
import OperatingSystem.Lib.Stdio

/-!
# OperatingSystem.Fs.Shell

The shell: `main` of `fs_sim.c` with `command`, and `execute_command`, `ls`,
`file_stat` and `fs_stat` of `fs.c`.

`main` reads a line with `fgets` and its words with `sscanf`, into buffers it has
cleared before.  A longer line counts as several, and a word that is too long
for its buffer is undefined behaviour.  `execute_command` has a value in all
branches but `stat` and `df`; `main` ignores it.
-/

namespace OperatingSystem.Fs

open Stdio (lines scanWords atoi str)

/-- What the shell writes. -/
inductive Output where
  | prompt
  | printf (p : Printf)
  /-- A line of `ls`. -/
  | entry (type : TYPE) (name : List Byte) (inode size : Int)
  /-- The lines of `file_stat`. -/
  | stat (inode : Int) (type : TYPE) (owner group size blockCount : Int) (created lastAccess : Timeval)
  /-- The lines of `fs_stat`. -/
  | status (freeBlocks freeBytes freeInodes : Int)
  | notFound (comm : List Byte)

/-! ## ls, file_stat, fs_stat -/

/-- The loop of `ls` over the entry numbers. -/
def lsFrom (s : FS) : List Nat → Option (List Output)
  | [] => some []
  | i :: is => do
      let e ← s.curDir.dentry.read i
      let n ← s.inode.read e.inode
      let out ← lsFrom s is
      return .entry n.type (cstr e.name) e.inode n.size :: out

def ls (s : FS) : Option (List Output) := lsFrom s (List.range s.curDir.numEntry.toNat)

def fileStat (s : FS) (name : Name) : Option (List Output) := do
  let inodeNum ← searchCurDir s name
  if inodeNum < 0 then return [.printf (.text "file cat error: file is not exist.\n")]
  else do
    let n ← s.inode.read inodeNum
    return [.stat inodeNum n.type n.owner n.group n.size n.blockCount n.created n.lastAccess]

def fsStat (s : FS) : List Output :=
  [.status s.superBlock.freeBlockCount (s.superBlock.freeBlockCount * 512) s.superBlock.freeInodeCount]

/-! ## execute_command -/

def command (comm comm2 : List Byte) : Bool :=
  comm.length == comm2.length && comm.take comm.length == comm2.take comm.length

/-- What a line asks for. -/
inductive Request where
  | command (c : Command)
  | ls
  | stat (name : Name)
  | df
  | usage (text : String)
  | notFound (comm : List Byte)

/-- The string in an argument buffer, as a name. -/
def nameOf (arg : List Byte) : Option Name :=
  if h : 1 ≤ arg.length ∧ arg.length ≤ 15 ∧ arg.all (· != 0) = true then
    some ⟨arg, h.1, h.2.1, fun b hb => by simpa using List.all_eq_true.mp h.2.2 b hb⟩
  else none

/-- `execute_command` up to the function that it calls. -/
def request (comm arg1 arg2 arg3 arg4 : List Byte) (numArg : Int) : Option Request :=
  if command comm (str "create") then
    if numArg < 2 then some (.usage "error: create <filename> <size>\n")
    else (nameOf arg1).map fun name => .command (.create name (atoi arg2))
  else if command comm (str "cat") then
    if numArg < 1 then some (.usage "error: cat <filename>\n")
    else (nameOf arg1).map fun name => .command (.cat name)
  else if command comm (str "write") then
    if numArg < 4 then some (.usage "error: write <filename> <offset> <size> <buf>\n")
    else (nameOf arg1).map fun name => .command (.write name (atoi arg2) (atoi arg3) arg4)
  else if command comm (str "read") then
    if numArg < 3 then some (.usage "error: read <filename> <offset> <size>\n")
    else (nameOf arg1).map fun name => .command (.read name (atoi arg2) (atoi arg3))
  else if command comm (str "rm") then
    if numArg < 1 then some (.usage "error: rm <filename>\n")
    else (nameOf arg1).map fun name => .command (.rm name)
  else if command comm (str "mkdir") then
    if numArg < 1 then some (.usage "error: mkdir <dirname>\n")
    else (nameOf arg1).map fun name => .command (.mkdir name)
  else if command comm (str "rmdir") then
    if numArg < 1 then some (.usage "error: rmdir <dirname>\n")
    else (nameOf arg1).map fun name => .command (.rmdir name)
  else if command comm (str "cd") then
    if numArg < 1 then some (.usage "error: cd <dirname>\n")
    else (nameOf arg1).map fun name => .command (.cd name)
  else if command comm (str "ls") then some .ls
  else if command comm (str "stat") then
    if numArg < 1 then some (.usage "error: stat <filename>\n")
    else (nameOf arg1).map fun name => .stat name
  else if command comm (str "df") then some .df
  else some (.notFound comm)

/-- The function that `execute_command` calls. -/
def perform (s : FS) (env : Env) : Request → Option (List Output × FS)
  | .command c => (execute s env c).map fun r => (r.out.map .printf, r.fs)
  | .ls => (ls s).map fun out => (out, s)
  | .stat name => (fileStat s name).map fun out => (out, s)
  | .df => some (fsStat s, s)
  | .usage text => some ([.printf (.text text)], s)
  | .notFound comm => some ([.notFound comm], s)

def executeCommand (s : FS) (env : Env) (comm arg1 arg2 arg3 arg4 : List Byte) (numArg : Int) :
    Option (List Output × FS) :=
  (request comm arg1 arg2 arg3 arg4 numArg).bind (perform s env)

/-! ## main -/

/-- The sizes of `comm`, `arg1`, `arg2`, `arg3` and `arg4`. -/
def bufferSizes : List Nat := [64, 16, 16, 16, 70656]

/-- The words `sscanf` finds in the string of the line. -/
def scanLine (input : List Byte) : Option (List (List Byte)) := scanWords bufferSizes (Stdio.cstr input)

/-- `numArg`: the number of words, or `EOF` when there is none. -/
def numArg (ws : List (List Byte)) : Int := if ws = [] then -1 else ws.length

/-- The line asks the shell to end. -/
def quits (ws : List (List Byte)) : Bool := command (ws.getD 0 []) (str "quit") || command (ws.getD 0 []) (str "exit")

/-- The loop of `main` over the lines, of which the first is number `k`; what a
command finds outside is in `env`. -/
def mainLoop (env : Nat → Env) : Nat → List (List Byte) → FS → Option (List Output × FS)
  | _, [], s => some ([], s)
  | k, input :: inputs, s => do
      let ws ← scanLine input
      if quits ws then return ([], s)
      else do
        let (out, s) ← executeCommand s (env k) (ws.getD 0 []) (ws.getD 1 []) (ws.getD 2 []) (ws.getD 3 []) (ws.getD 4 [])
          (numArg ws - 1)
        let (out', s) ← mainLoop env (k + 1) inputs s
        return (out ++ .prompt :: out', s)

/-- `main` with a disk name: what it writes and the disk it leaves. -/
def main (env : Nat → Env) (image : Option (Arr 4096 Block)) (tail : Nat → Byte) (stdin : List Byte) :
    Option (List Output × Arr 4096 Block) := do
  let s ← fsMount (env 0) image
  let (out, s) ← mainLoop env 1 (lines 256 stdin) s
  return (.prompt :: out, fsUmount s tail)

end OperatingSystem.Fs
