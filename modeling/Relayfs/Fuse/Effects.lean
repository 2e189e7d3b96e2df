/-
  File:      Relayfs/Fuse/Effects.lean
  Subject:   WHAT A FUSE HANDLER OR A BACKGROUND TASK DOES TO THE REST OF THE WORLD (the calls in
             bridge/src/fuse_fs.rs that leave the function): the inode map, the upload queue, the
             target, the cache directory.

  The handlers are programs over these effects; what the effects do, and what may happen between
  two of them, is said where runs of the mount are.

  An open, a seek and a read or write that follow each other on one file are one effect.
-/
import Relayfs.Lib.Prog
import Relayfs.Fuse.Path
import Relayfs.Queue.UploadQueue
import Relayfs.Wire.Requests
import Relayfs.Wire.Results

namespace Relayfs

open Lib

/-! ## 1. Types of the kernel interface -/

/-- `fuser::Errno`, as far as the mount answers with it. -/
inductive Errno where
  | enoent
  | eacces
  | eexist
  | enotdir
  | eisdir
  | einval
  | eio
  | erofs
  | enosys
  deriving DecidableEq, Repr

/-- `fuser::FileType`. -/
inductive FileType where
  | regularFile
  | directory
  | symlink
  deriving DecidableEq, Repr

/-- The type of a kind of the target. -/
def FileKind.fileType : FileKind → FileType
  | file => .regularFile
  | dir => .directory
  | symlink => .symlink
  | other => .regularFile

/-- What `symlink_metadata` says of a cache file. -/
structure Metadata where
  fileType : FileType
  size : Nat
  modified : Nat
  mode : Nat
  uid : Nat
  gid : Nat
  deriving DecidableEq, Repr

/-- `FileAttr`, without the fields that are the same for every file and the time of the call. -/
structure FileAttr where
  ino : Nat
  size : Nat
  modified : Nat
  kind : FileType
  perm : Nat
  nlink : Nat
  uid : Nat
  gid : Nat
  deriving DecidableEq, Repr

/-- A row of a directory listing, and what `ReplyDirectory::add` is given for it. -/
structure DirRow where
  ino : Nat
  offset : Nat
  kind : FileType
  name : String
  deriving DecidableEq, Repr

/-- The answer to a kernel request. -/
inductive Reply where
  | error (e : Errno)
  | ok
  | entry (attr : FileAttr)
  | attr (attr : FileAttr)
  | created (attr : FileAttr)
  | opened
  | data (bytes : List UInt8)
  | text (s : String)
  | written (n : Nat)
  | size (n : Nat)
  | statfs
  deriving DecidableEq, Repr

/-! ## 2. Effects -/

/-- The temporary file a download of a remote file writes; `tag` is the random number of its
    name. -/
structure TempFile where
  target : PathBuf
  tag : Nat
  deriving DecidableEq, Repr

inductive Effect where
  /-- `InodeMap`: `path_for`, `child_path`, `ino_for_path`. -/
  | pathFor (ino : Nat)
  | childPath (parent : Nat) (name : String)
  | inoForPath (path : PathBuf)
  /-- `UploadQueue`: `enqueue`, `wait_below`, `wait_drain`, `finish`. -/
  | enqueue (path : PathBuf) (start stop : Nat)
  | waitBelow (cap : Nat)
  | waitDrain (paths : List PathBuf)
  | finish (path : PathBuf) (range : Range) (outcome : SendOutcome)
  /-- `kick_prefetch`: start `prefetch_tail` unless one runs for the path; and its end. -/
  | kickPrefetch (path : PathBuf)
  | prefetchDone (path : PathBuf)
  /-- `AgentClient::call_timeout` and `call`. -/
  | call (req : BridgeRequest)
  /-- The cache directory. -/
  | createDirAll (p : PathBuf)
  | symlinkMetadata (p : PathBuf)
  | fileLen (p : PathBuf)
  | readAt (p : PathBuf) (offset len : Nat)
  | writeAt (p : PathBuf) (offset : Nat) (data : List UInt8)
  | setLen (p : PathBuf) (size : Nat)
  | createFile (p : PathBuf)
  | setPermissions (p : PathBuf) (mode : Nat)
  | removeFile (p : PathBuf)
  | removeDir (p : PathBuf)
  | symlinkFile (target : String) (p : PathBuf)
  | renameFile (source dest : PathBuf)
  | readLink (p : PathBuf)
  | readDir (p : PathBuf)
  /-- A download: its temporary file, and the rename that installs it. -/
  | randomTag
  | createTemp (t : TempFile)
  | writeTemp (t : TempFile) (offset : Nat) (data : List UInt8)
  | removeTemp (t : TempFile)
  | installTemp (t : TempFile)
  /-- `ReplyDirectory::add`: whether the reply buffer is full. -/
  | addRow (row : DirRow)

/-- What an effect is answered with. -/
def Answer : Effect → Type
  | .pathFor _ | .childPath _ _ => Option PathBuf
  | .inoForPath _ | .randomTag => Nat
  | .waitDrain _ => Except Errno Unit
  | .call _ => Except RpcError Json
  | .symlinkMetadata _ => Option Metadata
  | .fileLen _ => Option Nat
  | .readAt _ _ _ => Option (List UInt8)
  | .writeAt _ _ _ | .writeTemp _ _ _ | .installTemp _ | .addRow _ => Bool
  | .readLink _ => Option String
  | .readDir _ => Option (List (FileType × String))
  | _ => Unit

/-- A handler, or a part of one. -/
abbrev FsProg := Prog Effect Answer

namespace FsProg

/-- The program of one effect. -/
abbrev eff (e : Effect) : FsProg (Answer e) := Prog.perform e

def pathFor (ino : Nat) : FsProg (Option PathBuf) := eff (.pathFor ino)
def childPath (parent : Nat) (name : String) : FsProg (Option PathBuf) :=
  eff (.childPath parent name)
def inoForPath (path : PathBuf) : FsProg Nat := eff (.inoForPath path)
def enqueue (path : PathBuf) (start stop : Nat) : FsProg Unit :=
  eff (.enqueue path start stop)
def waitBelow (cap : Nat) : FsProg Unit := eff (.waitBelow cap)
def waitDrain (paths : List PathBuf) : FsProg (Except Errno Unit) := eff (.waitDrain paths)
def finish (path : PathBuf) (range : Range) (outcome : SendOutcome) : FsProg Unit :=
  eff (.finish path range outcome)
def kickPrefetch (path : PathBuf) : FsProg Unit := eff (.kickPrefetch path)
def prefetchDone (path : PathBuf) : FsProg Unit := eff (.prefetchDone path)
def call (req : BridgeRequest) : FsProg (Except RpcError Json) := eff (.call req)
def createDirAll (p : PathBuf) : FsProg Unit := eff (.createDirAll p)
def symlinkMetadata (p : PathBuf) : FsProg (Option Metadata) := eff (.symlinkMetadata p)
def fileLen (p : PathBuf) : FsProg (Option Nat) := eff (.fileLen p)
def readAt (p : PathBuf) (offset len : Nat) : FsProg (Option (List UInt8)) :=
  eff (.readAt p offset len)
def writeAt (p : PathBuf) (offset : Nat) (data : List UInt8) : FsProg Bool :=
  eff (.writeAt p offset data)
def setLen (p : PathBuf) (size : Nat) : FsProg Unit := eff (.setLen p size)
def createFile (p : PathBuf) : FsProg Unit := eff (.createFile p)
def setPermissions (p : PathBuf) (mode : Nat) : FsProg Unit := eff (.setPermissions p mode)
def removeFile (p : PathBuf) : FsProg Unit := eff (.removeFile p)
def removeDir (p : PathBuf) : FsProg Unit := eff (.removeDir p)
def symlinkFile (target : String) (p : PathBuf) : FsProg Unit :=
  eff (.symlinkFile target p)
def renameFile (source dest : PathBuf) : FsProg Unit := eff (.renameFile source dest)
def readLink (p : PathBuf) : FsProg (Option String) := eff (.readLink p)
def readDir (p : PathBuf) : FsProg (Option (List (FileType × String))) := eff (.readDir p)
def randomTag : FsProg Nat := eff .randomTag
def createTemp (t : TempFile) : FsProg Unit := eff (.createTemp t)
def writeTemp (t : TempFile) (offset : Nat) (data : List UInt8) : FsProg Bool :=
  eff (.writeTemp t offset data)
def removeTemp (t : TempFile) : FsProg Unit := eff (.removeTemp t)
def installTemp (t : TempFile) : FsProg Bool := eff (.installTemp t)
def addRow (row : DirRow) : FsProg Bool := eff (.addRow row)

end FsProg

end Relayfs
