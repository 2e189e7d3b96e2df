/-
  File:      Relayfs/Fuse/RemoteFs.lean
  Subject:   THE HANDLERS OF THE MOUNT (bridge/src/fuse_fs.rs, `impl Filesystem for RemoteFs`): one
             program for each kernel request.

  * `rpc`, `drainUploads`, `enqueueUpload`, `attrFor` -- what the handlers share;
  * `lookup` .. `create` -- the handlers, in the order of the source;
  * `KernelRequest`, `handle` -- all requests together.

  Offsets are those of the kernel, below `2 ^ 63`, so the `u64` sums of the source do not wrap.
-/
import Relayfs.Lib.Base64
import Relayfs.Fuse.Effects

namespace Relayfs

open Lib

/-! ## 1. Errors -/

/-- `str::contains`. -/
def hasInfix (needle text : String) : Bool :=
  text.toList.tails.any (needle.toList.isPrefixOf ·)

/-- `errno_for`. -/
def errnoFor (e : RpcError) : Errno :=
  let msg := e.message.toLower
  if hasInfix "no such file" msg || hasInfix "not found" msg then .enoent
  else if hasInfix "permission" msg || hasInfix "denied" msg then .eacces
  else if hasInfix "exists" msg then .eexist
  else if hasInfix "not a directory" msg then .enotdir
  else if hasInfix "is a directory" msg then .eisdir
  else .eio

/-! ## 2. What the handlers share -/

/-- `attr_from_stat`. -/
def attrFromStat (stat : StatResult) (ino : Nat) : FileAttr where
  ino := ino
  size := stat.size
  modified := stat.modified
  kind := stat.kind.fileType
  perm := stat.mode &&& 0o7777
  nlink := if stat.kind.fileType = .directory then 2 else 1
  uid := stat.uid
  gid := stat.gid

/-- `attr_from_metadata`. -/
def attrFromMetadata (m : Metadata) (ino : Nat) : FileAttr where
  ino := ino
  size := m.size
  modified := m.modified
  kind := m.fileType
  perm := m.mode &&& 0o7777
  nlink := if m.fileType = .directory then 2 else 1
  uid := m.uid
  gid := m.gid

namespace RemoteFs

open FsProg

/-- `rpc`. -/
def rpc (req : BridgeRequest) : FsProg (Except Errno Json) := do
  match ← call req with
  | .ok value => return .ok value
  | .error e => return .error (errnoFor e)

/-- `enqueue_upload`. -/
def enqueueUpload (path : PathBuf) (offset len : Nat) : FsProg Unit :=
  if len = 0 then return ()
  else do
    FsProg.enqueue path offset (offset + len)
    FsProg.waitBelow queueCap

/-- `drain_uploads`. -/
def drainUploads (paths : List PathBuf) : FsProg (Except Errno Unit) :=
  if paths = [] then return .ok () else FsProg.waitDrain paths

/-- `remote_attr`. -/
def remoteAttr (path : PathBuf) : FsProg (Except Errno FileAttr) := do
  match ← rpc (.stat path.text) with
  | .error e => return .error e
  | .ok value =>
      match StatResult.ofJson value with
      | none => return .error .eio
      | some stat => return .ok (attrFromStat stat (← inoForPath path))

/-- Create the directory a cache file lies in. -/
def createParent (file : PathBuf) : FsProg Unit :=
  match file.parent with
  | some dir => createDirAll dir
  | none => return ()

/-! What these perform. -/

section Performs

variable {P : Effect → Prop}

theorem only_rpc {req : BridgeRequest} (h : P (.call req)) : Prog.Only P (rpc req) := by
  refine Prog.Only.bind (Prog.only_perform.mpr h) fun a => ?_
  cases a with
  | ok value => exact Prog.only_pure _
  | error e => exact Prog.only_pure _

theorem only_enqueueUpload {path : PathBuf} {offset len : Nat}
    (h : P (.enqueue path offset (offset + len))) (hwait : P (.waitBelow queueCap)) :
    Prog.Only P (enqueueUpload path offset len) := by
  unfold enqueueUpload
  split
  · exact Prog.only_pure _
  · exact Prog.Only.bind (Prog.only_perform.mpr h) fun _ => Prog.only_perform.mpr hwait

theorem only_drainUploads {paths : List PathBuf} (h : P (.waitDrain paths)) :
    Prog.Only P (drainUploads paths) := by
  unfold drainUploads
  split
  · exact Prog.only_pure _
  · exact Prog.only_perform.mpr h

theorem only_createParent (h : ∀ p, P (.createDirAll p)) (file : PathBuf) :
    Prog.Only P (createParent file) := by
  unfold createParent
  split
  · exact Prog.only_perform.mpr (h _)
  · exact Prog.only_pure _

end Performs

variable (cfg : MountCfg)

/-- `attr_for`: the target's attributes, or else those of the cache file. -/
def attrFor (path : PathBuf) : FsProg (Except Errno FileAttr) := do
  let file := cfg.cachePath path
  match ← remoteAttr path with
  | .ok attr =>
      if attr.kind = .directory then
        createDirAll file
        return .ok attr
      else return .ok attr
  | .error e =>
      match ← symlinkMetadata file with
      | some m => return .ok (attrFromMetadata m (← inoForPath path))
      | none => return .error e

/-- The end of a handler that answers with attributes. -/
def replyAttr (path : PathBuf) (reply : FileAttr → Reply) : FsProg Reply := do
  match ← attrFor cfg path with
  | .ok attr => return reply attr
  | .error e => return .error e

/-! ## 3. The handlers -/

def lookup (parent : Nat) (name : String) : FsProg Reply := do
  let some path ← childPath parent name | return .error .enoent
  replyAttr cfg path .entry

def getattr (ino : Nat) : FsProg Reply := do
  let some path ← pathFor ino | return .error .enoent
  replyAttr cfg path .attr

/-- The part of `setattr` for a size: the queue is drained first; whether the target and the cache
    took the size is not asked. -/
def setSize (path : PathBuf) : Option Nat → FsProg (Except Errno Unit)
  | none => return .ok ()
  | some size => do
      match ← drainUploads [path] with
      | .error _ => return .error .eio
      | .ok () =>
          let _ ← rpc (.truncate path.text size)
          setLen (cfg.cachePath path) size
          return .ok ()

/-- The part of `setattr` for a mode. -/
def setMode (path : PathBuf) : Option Nat → FsProg Unit
  | none => return ()
  | some mode => do
      let _ ← rpc (.chmod path.text mode)
      setPermissions (cfg.cachePath path) mode

def setattr (ino : Nat) (mode size : Option Nat) : FsProg Reply := do
  let some path ← pathFor ino | return .error .enoent
  match ← setSize cfg path size with
  | .error e => return .error e
  | .ok () =>
      setMode cfg path mode
      replyAttr cfg path .attr

def readlink (ino : Nat) : FsProg Reply := do
  let some path ← pathFor ino | return .error .enoent
  match ← readLink (cfg.cachePath path) with
  | some target => return .text target
  | none =>
      match ← rpc (.stat path.text) with
      | .error e => return .error e
      | .ok value =>
          match StatResult.ofJson value with
          | none => return .error .eio
          | some stat =>
              match stat.linkTarget with
              | some target => return .text target
              | none => return .error .einval

/-- What `mknod` and `create` do before they ask the target: an empty cache file, and a drain. -/
def makeEmpty (path : PathBuf) (mode : Nat) : FsProg (Except Errno Unit) := do
  let file := cfg.cachePath path
  createParent file
  createFile file
  setPermissions file mode
  drainUploads [path]

def mknod (parent : Nat) (name : String) (mode : Nat) : FsProg Reply := do
  let some path ← childPath parent name | return .error .enoent
  if cfg.readOnly then return .error .erofs
  else do
    let .ok () ← makeEmpty cfg path mode | return .error .eio
    let _ ← rpc (.writeFile path.text "" (some false))
    replyAttr cfg path .entry

def mkdir (parent : Nat) (name : String) (mode : Nat) : FsProg Reply := do
  let some path ← childPath parent name | return .error .enoent
  if cfg.readOnly then return .error .erofs
  else do
    createDirAll (cfg.cachePath path)
    let _ ← rpc (.mkdir path.text (some mode))
    replyAttr cfg path .entry

def unlink (parent : Nat) (name : String) : FsProg Reply := do
  let some path ← childPath parent name | return .error .enoent
  if cfg.readOnly then return .error .erofs
  else do
    let .ok () ← drainUploads [path] | return .error .eio
    removeFile (cfg.cachePath path)
    let _ ← rpc (.remove path.text (some false))
    return .ok

def rmdir (parent : Nat) (name : String) : FsProg Reply := do
  let some path ← childPath parent name | return .error .enoent
  if cfg.readOnly then return .error .erofs
  else do
    let .ok () ← drainUploads [path] | return .error .eio
    removeDir (cfg.cachePath path)
    let _ ← rpc (.remove path.text (some false))
    return .ok

def symlink (parent : Nat) (linkName target : String) : FsProg Reply := do
  let some path ← childPath parent linkName | return .error .enoent
  if cfg.readOnly then return .error .erofs
  else do
    symlinkFile target (cfg.cachePath path)
    let .ok () ← drainUploads [path] | return .error .eio
    let _ ← rpc (.symlink path.text target)
    replyAttr cfg path .entry

/-- The part of `rename` for two known paths of a writable mount. -/
def renamePaths (source dest : PathBuf) : FsProg Reply := do
  let .ok () ← drainUploads [source, dest] | return .error .eio
  createParent (cfg.cachePath dest)
  renameFile (cfg.cachePath source) (cfg.cachePath dest)
  let _ ← rpc (.rename source.text dest.text)
  return .ok

def rename (parent : Nat) (name : String) (newparent : Nat) (newname : String) :
    FsProg Reply := do
  let source ← childPath parent name
  let dest ← childPath newparent newname
  match source, dest with
  | some source, some dest =>
      if cfg.readOnly then return .error .erofs else renamePaths cfg source dest
  | _, _ => return .error .enoent

/-- The cached part of `read`: the bytes, unless the file or the offset is not cached. An empty
    cache file answers a read at 0. -/
def readCached (file : PathBuf) (offset size : Nat) : FsProg (Option (List UInt8)) := do
  match ← fileLen file with
  | none => return none
  | some len =>
      if 0 < len ∧ offset < len then readAt file offset (min size (len - offset))
      else if len = 0 ∧ offset = 0 then return some []
      else return none

/-- The fetched bytes go to the cache if they begin at or before its end. -/
def fillCache (path : PathBuf) (offset : Nat) (bytes : List UInt8) : FsProg Unit := do
  let file := cfg.cachePath path
  createParent file
  let frontier := (← fileLen file).getD 0
  if offset ≤ frontier then
    if ← writeAt file offset bytes then kickPrefetch path else return ()
  else return ()

/-- The remote part of `read`. -/
def readRemote (path : PathBuf) (offset size : Nat) : FsProg Reply := do
  match ← rpc (.readFile path.text (some offset) (some (max size (1024 * 1024)))) with
  | .ok value =>
      match (ReadFileResult.ofJson value).bind fun r => Base64.decode r.data with
      | none => return .error .eio
      | some bytes =>
          fillCache cfg path offset bytes
          return .data (bytes.take size)
  | .error e =>
      match ← readAt (cfg.cachePath path) offset size with
      | some bytes => return .data bytes
      | none => return .error e

def read (ino offset size : Nat) : FsProg Reply := do
  let some path ← pathFor ino | return .error .enoent
  match ← readCached (cfg.cachePath path) offset size with
  | some bytes => return .data bytes
  | none => readRemote cfg path offset size

/-- The part of `write` for a known path of a writable mount: the cache and the queue, or the
    target where the cache cannot be written. -/
def writePath (path : PathBuf) (offset : Nat) (data : List UInt8) : FsProg Reply := do
  let file := cfg.cachePath path
  createParent file
  if ← writeAt file offset data then
    enqueueUpload path offset data.length
    return .written data.length
  else do
    let _ ← rpc (.writeAt path.text offset (Base64.encode data))
    return .written data.length

def write (ino offset : Nat) (data : List UInt8) : FsProg Reply := do
  let some path ← pathFor ino | return .error .enoent
  if cfg.readOnly then return .error .erofs else writePath cfg path offset data

/-- `flush` and `fsync`. -/
def flush (ino : Nat) : FsProg Reply := do
  match ← pathFor ino with
  | some path =>
      match ← drainUploads [path] with
      | .ok () => return .ok
      | .error e => return .error e
  | none => return .ok

def release (ino : Nat) : FsProg Reply := do
  match ← pathFor ino with
  | some path =>
      let _ ← drainUploads [path]
      return .ok
  | none => return .ok

/-- The entries of `readdir`, as the target lists them: the cache gets its directories. -/
def remoteEntries (dir : PathBuf) (entries : List DirEntry) :
    FsProg (List (FileType × String)) :=
  entries.mapM fun e => do
    if e.kind.fileType = .directory then
      createDirAll (dir.child e.name)
      return (e.kind.fileType, e.name)
    else return (e.kind.fileType, e.name)

/-- The entries of `readdir`: the target's, or else the cache directory's. -/
def listEntries (path dir : PathBuf) : FsProg (Except Errno (List (FileType × String))) := do
  match ← rpc (.listDir path.text) with
  | .ok value =>
      match listDirEntries value with
      | some entries => return .ok (← remoteEntries dir entries)
      | none => return .error .eio
  | .error e =>
      match ← readDir dir with
      | some entries => return .ok entries
      | none => return .error e

/-- The reply of `readdir`: the rows from `offset` on, until the buffer is full. -/
def addRows (offset : Nat) : Nat → List (Nat × FileType × String) → FsProg Unit
  | _, [] => return ()
  | i, (ino, kind, name) :: rest =>
      if i < offset then addRows offset (i + 1) rest
      else do
        if ← addRow ⟨ino, i + 1, kind, name⟩ then return () else addRows offset (i + 1) rest

def readdir (ino offset : Nat) : FsProg Reply := do
  let some path ← pathFor ino | return .error .enoent
  let dir := cfg.cachePath path
  createDirAll dir
  match ← listEntries path dir with
  | .error e => return .error e
  | .ok entries =>
      let rows ← entries.mapM fun e => do
        return ((← inoForPath (path.child e.2)), e.1, e.2)
      addRows offset 0 ((ino, .directory, ".") :: (1, .directory, "..") :: rows)
      return .ok

def create (parent : Nat) (name : String) (mode : Nat) : FsProg Reply := do
  let some path ← childPath parent name | return .error .enoent
  if cfg.readOnly then return .error .erofs
  else do
    let .ok () ← makeEmpty cfg path mode | return .error .eio
    let _ ← rpc (.writeFile path.text "" (some false))
    let _ ← rpc (.chmod path.text mode)
    replyAttr cfg path .created

end RemoteFs

/-! ## 4. All requests -/

/-- **A kernel request**, with the arguments its handler reads. -/
inductive KernelRequest where
  | lookup (parent : Nat) (name : String)
  | getattr (ino : Nat)
  | setattr (ino : Nat) (mode size : Option Nat)
  | readlink (ino : Nat)
  | mknod (parent : Nat) (name : String) (mode : Nat)
  | mkdir (parent : Nat) (name : String) (mode : Nat)
  | unlink (parent : Nat) (name : String)
  | rmdir (parent : Nat) (name : String)
  | symlink (parent : Nat) (linkName target : String)
  | rename (parent : Nat) (name : String) (newparent : Nat) (newname : String)
  | link
  | openFile
  | read (ino offset size : Nat)
  | write (ino offset : Nat) (data : List UInt8)
  | flush (ino : Nat)
  | release (ino : Nat)
  | fsync (ino : Nat)
  | opendir
  | readdir (ino offset : Nat)
  | releasedir
  | fsyncdir
  | statfs
  | setxattr
  | getxattr
  | listxattr (size : Nat)
  | removexattr
  | access
  | create (parent : Nat) (name : String) (mode : Nat)
  deriving DecidableEq, Repr

/-- The handler of a request. -/
def RemoteFs.handle (cfg : MountCfg) : KernelRequest → FsProg Reply
  | .lookup parent name => lookup cfg parent name
  | .getattr ino => getattr cfg ino
  | .setattr ino mode size => setattr cfg ino mode size
  | .readlink ino => readlink cfg ino
  | .mknod parent name mode => mknod cfg parent name mode
  | .mkdir parent name mode => mkdir cfg parent name mode
  | .unlink parent name => unlink cfg parent name
  | .rmdir parent name => rmdir cfg parent name
  | .symlink parent linkName target => symlink cfg parent linkName target
  | .rename parent name newparent newname => rename cfg parent name newparent newname
  | .read ino offset size => read cfg ino offset size
  | .write ino offset data => write cfg ino offset data
  | .flush ino | .fsync ino => flush ino
  | .release ino => release ino
  | .readdir ino offset => readdir cfg ino offset
  | .create parent name mode => create cfg parent name mode
  | .link | .setxattr | .getxattr | .removexattr => return .error .enosys
  | .openFile | .opendir => return .opened
  | .releasedir | .fsyncdir | .access => return .ok
  | .listxattr size => return if size = 0 then .size 0 else .data []
  | .statfs => return .statfs

end Relayfs
