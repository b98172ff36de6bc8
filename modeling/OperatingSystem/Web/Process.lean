import OperatingSystem.Web.Strings

/-!
# OperatingSystem.Web.Process

`process` of the web server and what it calls: `get_mime_type`, `send_headers`,
`send_error` and `send_file`.  The two versions of the server have the same
`process`.

The server sees the rest of the machine through `Machine`.  What it does is an
`Outcome`: the value or the trap that ends the call, the paths it passed to
`stat`, `fopen` and `opendir`, and what it wrote to the client.  A string that
does not fit the buffer that `sprintf` or `strcat` builds it in is a trap, as is a
`readdir` of no directory.  The log on standard output is left out.
-/

namespace OperatingSystem.Web

/-! ## The machine -/

/-- What `process` reads of a `struct stat`. -/
structure Stat where
  isDir : Bool
  isReg : Bool
  size : Int
  mtime : Int
deriving DecidableEq

structure Machine where
  /-- The working directory of the server. -/
  cwd : List Byte
  /-- `stat`; `none` when it fails. -/
  stat : List Byte → Option Stat
  /-- `fopen` for reading, and what `fread` gives then. -/
  fopen : List Byte → Option (List Byte)
  /-- `opendir`, and the names `readdir` gives then. -/
  opendir : List Byte → Option (List (List Byte))
  time : Int

/-- A machine with these directories and files, all empty and from time 0. -/
def Machine.hosting (cwd : List Byte) (dirs files : List (List Byte)) : Machine where
  cwd := cwd
  stat path := if path ∈ dirs then some ⟨true, false, 0, 0⟩ else if path ∈ files then some ⟨false, true, 0, 0⟩ else none
  fopen path := if path ∈ files then some [] else none
  opendir path := if path ∈ dirs then some [dot, dotdot] else none
  time := 0

/-- A path that is passed to the file system. -/
inductive Call where
  | stat (path : List Byte)
  | fopen (path : List Byte)
  | opendir (path : List Byte)
deriving DecidableEq

def Call.path : Call → List Byte
  | .stat path => path
  | .fopen path => path
  | .opendir path => path

/-- An argument of `fprintf`; a time is formatted by `strftime` first. -/
inductive Arg where
  | int (n : Int)
  | text (s : String)
  | str (s : List Byte)
  | time (format : String) (t : Int)
deriving DecidableEq

/-- A write to the client. -/
inductive Write where
  | fprintf (format : String) (args : List Arg)
  | fwrite (data : List Byte)
deriving DecidableEq

/-- Undefined behaviour: a string longer than its buffer, `cwd` without a
directory, a `DIR` that is null. -/
inductive Trap where
  | overflow
  | noCwd
  | noDir
deriving DecidableEq

structure Outcome where
  value : Except Trap Int
  calls : List Call
  reply : List Write

/-- What comes before the rest. -/
def Outcome.after (calls : List Call) (reply : List Write) (o : Outcome) : Outcome :=
  ⟨o.value, calls ++ o.calls, reply ++ o.reply⟩

/-! ## Replies -/

def mimeTypes : List (String × String) :=
  [(".html", "text/html"), (".htm", "text/html"), (".jpg", "image/jpeg"), (".jpeg", "image/jpeg"), (".gif", "image/gif"),
    (".png", "image/png"), (".css", "text/css"), (".au", "audio/basic"), (".wav", "audio/wav"), (".avi", "video/x-msvideo"),
    (".mpeg", "video/mpeg"), (".mpg", "video/mpeg"), (".mp3", "audio/mpeg")]

/-- `get_mime_type`. -/
def getMimeType (name : List Byte) : Option String :=
  (strrchr name 46).bind fun ext => (mimeTypes.find? fun e => str e.1 == ext).map Prod.snd

def server : String := "webserver/1.0"

def protocol : String := "HTTP/1.0"

def rfc1123fmt : String := "%a, %d %b %Y %H:%M:%S GMT"

/-- `send_headers`. -/
def sendHeaders (m : Machine) (status : Int) (title : String) (extra : Option (List Byte)) (mime : Option String)
    (length date : Int) : List Write :=
  [.fprintf "%s %d %s\r\n" [.text protocol, .int status, .text title],
    .fprintf "Server: %s\r\n" [.text server],
    .fprintf "Date: %s\r\n" [.time rfc1123fmt m.time]] ++
  (extra.map fun s => Write.fprintf "%s\r\n" [.str s]).toList ++
  (mime.map fun s => Write.fprintf "Content-Type: %s\r\n" [.text s]).toList ++
  (if length ≥ 0 then [.fprintf "Content-Length: %d\r\n" [.int length]] else []) ++
  (if date ≠ -1 then [.fprintf "Last-Modified: %s\r\n" [.time rfc1123fmt date]] else []) ++
  [.fprintf "Connection: close\r\n" [], .fprintf "\r\n" []]

/-- `send_error`. -/
def sendError (m : Machine) (status : Int) (title : String) (extra : Option (List Byte)) (text : String) : List Write :=
  sendHeaders m status title extra (some "text/html") (-1) (-1) ++
  [.fprintf "<HTML><HEAD><TITLE>%d %s</TITLE></HEAD>\r\n" [.int status, .text title],
    .fprintf "<BODY><H4>%d %s</H4>\r\n" [.int status, .text title],
    .fprintf "%s\r\n" [.text text],
    .fprintf "</BODY></HTML>\r\n" []]

/-- `length` of `send_file`: the size as an `int`, for a regular file. -/
def fileLength (statbuf : Stat) : Int := if statbuf.isReg then statbuf.size.bmod (2 ^ 32) else -1

/-- `send_file`. -/
def sendFile (m : Machine) (path : List Byte) (statbuf : Stat) : List Write :=
  match m.fopen path with
  | none => sendError m 403 "Forbidden" none "Access denied."
  | some data =>
      sendHeaders m 200 "OK" none (getMimeType path) (fileLength statbuf) statbuf.mtime ++ [.fwrite data]

/-! ## The listing of a directory -/

/-- What is written of one entry. -/
def entryLine (name : List Byte) (statbuf : Stat) : List Write :=
  [.fprintf "<A HREF=\"%s%s\">" [.str name, .text (if statbuf.isDir then "/" else "")],
    .fprintf "%s%s" [.str name, .text (if statbuf.isDir then "/</A>" else "</A> ")]] ++
  (if name.length < 32 then [.fprintf "%*s" [.int (32 - name.length), .text ""]] else []) ++
  (if statbuf.isDir then [.fprintf "%s\r\n" [.time "%d-%b-%Y %H:%M:%S" statbuf.mtime]]
    else [.fprintf "%s %10d\r\n" [.time "%d-%b-%Y %H:%M:%S" statbuf.mtime, .int statbuf.size]])

/-- The loop over the entries of `path`.  `pathbuf` has 4096 bytes.  When `stat`
fails, `statbuf` holds what it held before. -/
def listEntries (m : Machine) (path : List Byte) : List (List Byte) → Stat → Outcome
  | [], _ => ⟨.ok 0, [], [.fprintf "</PRE>\r\n<HR>\r\n<ADDRESS>%s</ADDRESS>\r\n</BODY></HTML>\r\n" [.text server]]⟩
  | name :: rest, statbuf =>
      let pathbuf := path ++ name
      if pathbuf.length ≥ 4096 then ⟨.error .overflow, [], []⟩
      else
        let statbuf := (m.stat pathbuf).getD statbuf
        (listEntries m path rest statbuf).after [.stat pathbuf] (entryLine name statbuf)

/-- The listing of `path`. -/
def listing (m : Machine) (path : List Byte) (statbuf : Stat) : Outcome :=
  let head :=
    sendHeaders m 200 "OK" none (some "text/html") (-1) statbuf.mtime ++
    [.fprintf "<HTML><HEAD><TITLE>Index of %s</TITLE></HEAD>\r\n<BODY>" [.str path],
      .fprintf "<H4>Index of %s</H4>\r\n<PRE>\n" [.str path],
      .fprintf "Name                             Last Modified              Size\r\n" [],
      .fprintf "<HR>\r\n" []] ++
    (if path.length > 1 then [.fprintf "<A HREF=\"..\">..</A>\r\n" []] else [])
  match m.opendir path with
  | none => ⟨.error .noDir, [.opendir path], head⟩
  | some names => (listEntries m path names statbuf).after [.opendir path] head

/-! ## process -/

/-- The method and the path of a request line, when there is a protocol too. -/
def requestOf (buf : List Byte) : Option (List Byte × List Byte) := do
  let (method, rest) ← strtok buf space
  let (path, rest) ← strtok rest space
  let _ ← strtok rest cr
  return (method, path)

/-- `snprintf(pathbuf, sizeof(pathbuf), "Location: %s/", path)`. -/
def location (path : List Byte) : List Byte := (str "Location: " ++ path ++ [slash]).take 4095

/-- `snprintf(pathbuf, sizeof(pathbuf), "%s%sindex.html", cwd, path)`; `path`
starts with `cwd` already. -/
def indexPath (cwd path : List Byte) : List Byte := (cwd ++ path ++ str "index.html").take 4095

/-- The branches of `process` for a directory. -/
def serveDirectory (m : Machine) (path : List Byte) (statbuf : Stat) : Outcome :=
  if path.getLast? ≠ some slash then
    ⟨.ok 0, [], sendError m 302 "Found" (some (location path)) "Directories must end with a slash."⟩
  else
    let pathbuf := indexPath m.cwd path
    match m.stat pathbuf with
    | some statbuf => ⟨.ok 0, [.stat pathbuf, .fopen pathbuf], sendFile m pathbuf statbuf⟩
    | none => (listing m path statbuf).after [.stat pathbuf] []

/-- The branches of `process` once `path` is built. -/
def serve (m : Machine) (method path : List Byte) : Outcome :=
  if strcaseeq method (str "GET") = false then
    ⟨.ok 0, [], sendError m 501 "Not supported" none "Method is not supported."⟩
  else
    match m.stat path with
    | none => ⟨.ok 0, [.stat path], sendError m 404 "Not Found" none "File not found."⟩
    | some statbuf =>
        if statbuf.isDir then (serveDirectory m path statbuf).after [.stat path] []
        else ⟨.ok 0, [.stat path, .fopen path], sendFile m path statbuf⟩

/-- The request `process` reads from the stream: the method and the path after
the tokenising, or `none` when it returns -1. -/
def readRequest (input : List Byte) : Option (List Byte × List Byte) :=
  (fgets 4096 input).bind fun buf => requestOf (cstr buf)

/-- `process` of a stream that holds these bytes. -/
def process (m : Machine) (input : List Byte) : Outcome :=
  match readRequest input with
  | none => ⟨.ok (-1), [], []⟩
  | some (method, _path) =>
      -- `getcwd(cwd, 1024)` fails on a longer path, and `cwd` is read as it is
      if m.cwd.length ≥ 1024 then ⟨.error .noCwd, [], []⟩
      else
        let path := m.cwd ++ _path
        if path.length ≥ 4096 then ⟨.error .overflow, [], []⟩
        else serve m method path

end OperatingSystem.Web
