/-
  File:      Relayfs/Bridge/Download.lean
  Subject:   `download_file` (bridge/src/mcp.rs) into a local file system on which any step may
             fail, from a target that may answer anything.

  The download creates a temporary file beside the destination, appends what READ_FILE answers
  until an answer says `eof`, syncs it and renames it. An error before the rename goes through the
  branch that removes the temporary file; an error of the rename does not.

  * `temporaryPath`, `DownloadFile` -- where a download is, and what it does next;
  * `DownloadState`, `DownloadRun` -- the download and the local files;
  * `download_fails_clean_iff` -- an error leaves the destination as it was; it leaves no temporary
    file exactly when it is not that of the rename;
  * `Fetched` -- what has been fetched of a file that does not change, and whether a read was short;
  * `download_file_whole` -- from a target that reads all it can the loop ends with the whole file;
  * `eof_honest_iff` -- from one that reads less, exactly when no read is short.
-/
import Relayfs.Agent.ReadFile
import Relayfs.Bridge.Upload
import Relayfs.Fuse.Path

namespace Relayfs

open Lib

/-! ## 1. The download -/

/-- `DownloadFileArgs`. -/
structure DownloadFileArgs where
  remotePath : String
  localPath : String
  createDirs : Option Bool

/-- `temporary_path`, for the random number of its name. -/
def temporaryPath (path : PathBuf) (label : String) (rnd : Nat) : PathBuf :=
  let parent := path.parent.getD (.ofText ".")
  let fileName := path.fileName.getD ""
  parent.join ⟨false, ["." ++ fileName ++ ".relayfs-" ++ label ++ "-" ++ hex16 rnd]⟩

namespace DownloadFileArgs

variable (args : DownloadFileArgs)

def dest : PathBuf := .ofText args.localPath

def temp (rnd : Nat) : PathBuf := temporaryPath args.dest "download" rnd

/-- The directory that is created first, if any. -/
def madeDir : Option PathBuf :=
  if args.createDirs.getD false then args.dest.parent.filter fun parent => parent.text ≠ ""
  else none

end DownloadFileArgs

/-- **Where a download is**: what it waits for, with what it has at hand. -/
inductive DownloadFile where
  | makingDirs (parent : PathBuf)
  | creating
  | calling (offset : Nat)
  | writing (offset : Nat) (data : List UInt8) (eof : Bool)
  | syncing (bytes : Nat)
  | replacing (bytes : Nat)
  | removing (error : String)
  | done (result : Except String Nat)

namespace DownloadFile

/-- The start of a download. -/
def first (args : DownloadFileArgs) : DownloadFile :=
  match args.madeDir with
  | some parent => makingDirs parent
  | none => creating

/-- The request whose answer the download waits for. -/
def request (args : DownloadFileArgs) : DownloadFile → Option BridgeRequest
  | calling offset => some (.readFile args.remotePath (some offset) (some transferChunkBytes))
  | _ => none

/-- What the download does with an answer; `why` is what `serde` or the decoder finds wrong. -/
def answered (offset : Nat) (why : String) : Except RpcError Json → DownloadFile
  | .error e => removing e.message
  | .ok v =>
      match ReadFileResult.ofJson v with
      | none => removing why
      | some read =>
          match Base64.decode read.data with
          | none => removing ("invalid base64 returned by target: " ++ why)
          | some data =>
              if data = [] ∧ read.eof = false then
                removing "remote transfer returned an empty non-final chunk"
              else writing offset data read.eof

/-- What it does once the data is written. The offset is a `u64`. -/
def wrote (offset : Nat) (data : List UInt8) (eof : Bool) : DownloadFile :=
  let offset := (offset + data.length) % 2 ^ 64
  if eof then syncing offset else calling offset

end DownloadFile

/-! ## 2. Runs -/

/-- The content of each local regular file. -/
abbrev LocalFiles := PathBuf → Option (List UInt8)

structure DownloadState where
  download : DownloadFile
  files : LocalFiles

inductive DownloadEvent where
  | makeDirs (result : Except String Unit)
  | create (result : Except String Unit)
  /-- The call returns. -/
  | answer (result : Except RpcError Json) (why : String)
  /-- The data is written; a write that fails has taken some bytes. -/
  | write (fails : Option (Nat × String))
  | sync (result : Except String Unit)
  | remove (result : Except String Unit)
  | rename (result : Except String Unit)
  /-- Somebody else changes another file. -/
  | other (path : PathBuf) (content : Option (List UInt8))

/-- A step of the download itself. -/
def DownloadEvent.own : DownloadEvent → Bool
  | .other .. => false
  | _ => true

namespace DownloadFile

/-- The download waits for an event. -/
def awaits : DownloadFile → DownloadEvent → Bool
  | makingDirs _, .makeDirs _ | creating, .create _ | calling _, .answer .. | writing .., .write _
  | syncing _, .sync _ | removing _, .remove _ | replacing _, .rename _ | _, .other .. => true
  | _, _ => false

/-- The data that is being written. -/
def data : DownloadFile → List UInt8
  | writing _ data _ => data
  | _ => []

end DownloadFile

section Download

variable (args : DownloadFileArgs) (temp : PathBuf)

/-- When an event can happen. Nobody else touches the temporary file or the destination. No file is
    of `2 ^ 63` bytes. -/
def DownloadState.permits (st : DownloadState) (e : DownloadEvent) : Prop :=
  st.download.awaits e = true ∧
    match e with
    | .write none => ∀ content ∈ st.files temp, content.length + st.download.data.length < 2 ^ 63
    | .other path _ => path ≠ temp ∧ path ≠ args.dest
    | _ => True

instance DownloadState.decPermits (st : DownloadState) :
    ∀ e, Decidable (st.permits args temp e)
  | .write none | .other .. => inferInstanceAs (Decidable (_ ∧ _))
  | .write (some _) | .makeDirs _ | .create _ | .answer .. | .sync _ | .remove _ | .rename _ =>
      inferInstanceAs (Decidable (_ ∧ True))

/-- What an event does. -/
def DownloadState.next (st : DownloadState) (e : DownloadEvent) : DownloadState :=
  match e, st.download with
  | .makeDirs (.ok _), .makingDirs _ => { st with download := .creating }
  | .makeDirs (.error e), .makingDirs parent =>
      { st with
        download := .done (.error ("create local directory " ++ parent.text ++ ": " ++ e)) }
  | .create (.ok _), .creating =>
      ⟨.calling 0, Function.update st.files temp (some [])⟩
  | .create (.error e), .creating =>
      { st with download := .removing ("create local destination " ++ temp.text ++ ": " ++ e) }
  | .answer result why, .calling offset => { st with download := .answered offset why result }
  | .write none, .writing offset data eof =>
      ⟨.wrote offset data eof,
        Function.update st.files temp (some ((st.files temp).getD [] ++ data))⟩
  | .write (some (taken, e)), .writing _ data _ =>
      ⟨.removing ("write local destination " ++ temp.text ++ ": " ++ e),
        Function.update st.files temp (some ((st.files temp).getD [] ++ data.take taken))⟩
  | .sync (.ok _), .syncing bytes => { st with download := .replacing bytes }
  | .sync (.error e), .syncing _ =>
      { st with download := .removing ("sync local destination " ++ temp.text ++ ": " ++ e) }
  | .remove result, .removing error =>
      ⟨.done (.error error),
        match result with
        | .ok _ => Function.update st.files temp none
        | .error _ => st.files⟩
  | .rename (.ok _), .replacing bytes =>
      ⟨.done (.ok bytes),
        Function.update (Function.update st.files temp none) args.dest (st.files temp)⟩
  | .rename (.error e), .replacing _ =>
      { st with
        download := .done (.error ("replace local destination " ++ args.dest.text ++ ": " ++ e)) }
  | .other path content, _ => { st with files := Function.update st.files path content }
  | _, _ => st

abbrev DownloadStep : DownloadState → DownloadEvent → DownloadState → Prop :=
  Moves (DownloadState.permits args temp) (DownloadState.next args temp)

/-- A download that has just been asked for, among local files without the temporary one. -/
def DownloadInit (files : LocalFiles) (st : DownloadState) : Prop :=
  st = ⟨.first args, files⟩ ∧ files temp = none

/-- **Runs of a download** from the local files `files`. -/
abbrev DownloadRun (files : LocalFiles) (hist : List (DownloadState × DownloadEvent))
    (st : DownloadState) : Prop :=
  Run (DownloadInit args temp files) (DownloadStep args temp) hist st

/-- **All that a step can do**, from a download and the local files. -/
inductive DownloadEffect (files : LocalFiles) :
    DownloadFile → DownloadEvent → DownloadState → Prop where
  | dirsMade {parent : PathBuf} {r : Unit} :
      DownloadEffect files (.makingDirs parent) (.makeDirs (.ok r)) ⟨.creating, files⟩
  | dirsFail {parent : PathBuf} {e : String} :
      DownloadEffect files (.makingDirs parent) (.makeDirs (.error e))
        ⟨.done (.error ("create local directory " ++ parent.text ++ ": " ++ e)), files⟩
  | created {r : Unit} :
      DownloadEffect files .creating (.create (.ok r))
        ⟨.calling 0, Function.update files temp (some [])⟩
  | createFails {e : String} :
      DownloadEffect files .creating (.create (.error e))
        ⟨.removing ("create local destination " ++ temp.text ++ ": " ++ e), files⟩
  | answered {offset : Nat} {result : Except RpcError Json} {why : String} :
      DownloadEffect files (.calling offset) (.answer result why)
        ⟨.answered offset why result, files⟩
  | wrote {offset : Nat} {data : List UInt8} {eof : Bool}
      (hsmall : ∀ content ∈ files temp, content.length + data.length < 2 ^ 63) :
      DownloadEffect files (.writing offset data eof) (.write none)
        ⟨.wrote offset data eof,
          Function.update files temp (some ((files temp).getD [] ++ data))⟩
  | writeFails {offset taken : Nat} {data : List UInt8} {eof : Bool} {e : String} :
      DownloadEffect files (.writing offset data eof) (.write (some (taken, e)))
        ⟨.removing ("write local destination " ++ temp.text ++ ": " ++ e),
          Function.update files temp (some ((files temp).getD [] ++ data.take taken))⟩
  | synced {bytes : Nat} {r : Unit} :
      DownloadEffect files (.syncing bytes) (.sync (.ok r)) ⟨.replacing bytes, files⟩
  | syncFails {bytes : Nat} {e : String} :
      DownloadEffect files (.syncing bytes) (.sync (.error e))
        ⟨.removing ("sync local destination " ++ temp.text ++ ": " ++ e), files⟩
  | removed {error : String} {r : Unit} :
      DownloadEffect files (.removing error) (.remove (.ok r))
        ⟨.done (.error error), Function.update files temp none⟩
  | removeFails {error e : String} :
      DownloadEffect files (.removing error) (.remove (.error e)) ⟨.done (.error error), files⟩
  | renamed {bytes : Nat} {r : Unit} :
      DownloadEffect files (.replacing bytes) (.rename (.ok r))
        ⟨.done (.ok bytes),
          Function.update (Function.update files temp none) args.dest (files temp)⟩
  | renameFails {bytes : Nat} {e : String} :
      DownloadEffect files (.replacing bytes) (.rename (.error e))
        ⟨.done (.error ("replace local destination " ++ args.dest.text ++ ": " ++ e)), files⟩
  | other {d : DownloadFile} {path : PathBuf} {content : Option (List UInt8)}
      (htemp : path ≠ temp) (hdest : path ≠ args.dest) :
      DownloadEffect files d (.other path content) ⟨d, Function.update files path content⟩

variable {args temp}

theorem DownloadEffect.of_step {d : DownloadFile} {files : LocalFiles} {e : DownloadEvent}
    {st' : DownloadState} (h : DownloadStep args temp ⟨d, files⟩ e st') :
    DownloadEffect args temp files d e st' := by
  obtain ⟨hok, rfl⟩ := h
  cases e with
  | makeDirs result =>
    cases d with
    | makingDirs parent =>
      cases result with
      | ok => exact .dirsMade
      | error e => exact .dirsFail
    | _ => cases hok.1
  | create result =>
    cases d with
    | creating =>
      cases result with
      | ok => exact .created
      | error e => exact .createFails
    | _ => cases hok.1
  | answer result why =>
    cases d with
    | calling offset => exact .answered
    | _ => cases hok.1
  | write fails =>
    cases d with
    | writing offset data eof =>
      cases fails with
      | none => exact .wrote hok.2
      | some fault => exact .writeFails
    | _ => cases hok.1
  | sync result =>
    cases d with
    | syncing bytes =>
      cases result with
      | ok => exact .synced
      | error e => exact .syncFails
    | _ => cases hok.1
  | remove result =>
    cases d with
    | removing error =>
      cases result with
      | ok => exact .removed
      | error e => exact .removeFails
    | _ => cases hok.1
  | rename result =>
    cases d with
    | replacing bytes =>
      cases result with
      | ok => exact .renamed
      | error e => exact .renameFails
    | _ => cases hok.1
  | other path content =>
    cases d with
    | _ => exact .other hok.2.1 hok.2.2

/-- An answer ends the loop, or brings data, which is not empty unless it is the last. -/
theorem answered_cases (offset : Nat) (why : String) (result : Except RpcError Json) :
    (∃ error, DownloadFile.answered offset why result = .removing error) ∨
      ∃ data eof, DownloadFile.answered offset why result = .writing offset data eof ∧
        (eof = false → data ≠ []) := by
  unfold DownloadFile.answered
  split
  · exact .inl ⟨_, rfl⟩
  · split
    · exact .inl ⟨_, rfl⟩
    · split
      · exact .inl ⟨_, rfl⟩
      · split
        · exact .inl ⟨_, rfl⟩
        · rename_i read _ _ data _ hnot
          exact .inr ⟨data, read.eof, rfl, fun heof hdata => hnot ⟨hdata, heof⟩⟩

/-! ## 3. Errors -/

/-- The temporary file is not the destination. -/
theorem DownloadFileArgs.temp_ne (args : DownloadFileArgs) (rnd : Nat) :
    args.temp rnd ≠ args.dest := by
  intro h
  have hlast : (args.temp rnd).parts.getLast? = some ("." ++ args.dest.fileName.getD "" ++
      ".relayfs-" ++ "download" ++ "-" ++ hex16 rnd) := List.getLast?_concat
  rw [h] at hlast
  generalize hname : "." ++ args.dest.fileName.getD "" ++ ".relayfs-" ++ "download" ++ "-" ++
    hex16 rnd = name at hlast
  have hlen := congrArg String.length hname
  simp only [String.length_append] at hlen
  have hpos : ".relayfs-".length = 9 := rfl
  have hdots : "..".length = 2 := rfl
  have hne : name ≠ ".." := by
    intro heq
    rw [heq] at hlen
    omega
  have hfile : args.dest.fileName = some name := by
    rw [PathBuf.fileName, hlast, Option.filter_some, if_pos (decide_eq_true hne)]
  rw [hfile, Option.getD_some] at hlen
  omega

/-- The final rename fails. -/
def DownloadEvent.renameFails : DownloadEvent → Bool
  | .rename (.error _) => true
  | _ => false

/-- The removal of the temporary file fails. -/
def DownloadEvent.removeFails : DownloadEvent → Bool
  | .remove (.error _) => true
  | _ => false

variable {before : Option (List UInt8)} {files : LocalFiles} {st : DownloadState}
  {hist : List (DownloadState × DownloadEvent)}

/-- **What a download has done to the local files**, phase by phase, for a destination that held
    `before`; `failed` says that a rename has failed. -/
def Local (args : DownloadFileArgs) (temp : PathBuf) (before : Option (List UInt8)) (failed : Prop)
    (st : DownloadState) : Prop :=
  match st.download with
  | .makingDirs _ | .creating =>
      st.files args.dest = before ∧ ¬ failed ∧ st.files temp = none
  | .calling _ | .writing .. | .syncing _ | .replacing _ =>
      st.files args.dest = before ∧ ¬ failed ∧ st.files temp ≠ none
  | .removing _ => st.files args.dest = before ∧ ¬ failed
  | .done (.ok _) => ¬ failed
  | .done (.error _) => st.files args.dest = before ∧ (failed ↔ st.files temp ≠ none)

theorem local_start (hfresh : files temp = none) {failed : Prop} (hfailed : ¬ failed) :
    Local args temp (files args.dest) failed ⟨.first args, files⟩ := by
  unfold DownloadFile.first
  split
  · exact ⟨rfl, hfailed, hfresh⟩
  · exact ⟨rfl, hfailed, hfresh⟩

/-- **One step**, where a removal that is attempted succeeds. -/
theorem Local.step {failed failed' : Prop} {e : DownloadEvent} {st' : DownloadState}
    (h : Local args temp before failed st) (hne : temp ≠ args.dest)
    (hs : DownloadStep args temp st e st') (hremove : e.removeFails = false)
    (hfailed : failed' ↔ e.renameFails = true ∨ failed) : Local args temp before failed' st' := by
  obtain ⟨d, files⟩ := st
  have hdest : ∀ content, Function.update files temp content args.dest = files args.dest :=
    fun content => Function.update_of_ne hne.symm _ _
  have hkept : e.renameFails = false → ¬ failed → ¬ failed' := by
    intro he hnot hfail
    rcases hfailed.mp hfail with hren | hfail
    · rw [he] at hren
      cases hren
    · exact hnot hfail
  cases DownloadEffect.of_step hs with
  | dirsMade => exact ⟨h.1, hkept rfl h.2.1, h.2.2⟩
  | dirsFail => exact ⟨h.1, iff_of_false (hkept rfl h.2.1) fun hsome => hsome h.2.2⟩
  | created =>
    refine ⟨(hdest _).trans h.1, hkept rfl h.2.1, ?_⟩
    show Function.update files temp (some []) temp ≠ none
    rw [Function.update_self]
    nofun
  | createFails => exact ⟨h.1, hkept rfl h.2.1⟩
  | @answered offset result why =>
    rcases answered_cases offset why result with ⟨error, heq⟩ | ⟨data, eof, heq, -⟩
    · rw [heq]
      exact ⟨h.1, hkept rfl h.2.1⟩
    · rw [heq]
      exact ⟨h.1, hkept rfl h.2.1, h.2.2⟩
  | @wrote offset data eof =>
    have hsome : Function.update files temp (some ((files temp).getD [] ++ data)) temp ≠ none := by
      rw [Function.update_self]
      nofun
    unfold DownloadFile.wrote
    dsimp only
    cases eof with
    | true => exact ⟨(hdest _).trans h.1, hkept rfl h.2.1, hsome⟩
    | false => exact ⟨(hdest _).trans h.1, hkept rfl h.2.1, hsome⟩
  | writeFails => exact ⟨(hdest _).trans h.1, hkept rfl h.2.1⟩
  | synced => exact ⟨h.1, hkept rfl h.2.1, h.2.2⟩
  | syncFails => exact ⟨h.1, hkept rfl h.2.1⟩
  | removed =>
    refine ⟨(hdest _).trans h.1, iff_of_false (hkept rfl h.2) fun hsome => hsome ?_⟩
    exact Function.update_self ..
  | removeFails => cases hremove
  | renamed => exact hkept rfl h.2.1
  | renameFails =>
    -- the error leaves `download_file` past the branch that removes
    exact ⟨h.1, iff_of_true (hfailed.mpr (.inl rfl)) h.2.2⟩
  | @other d path content htemp hpath =>
    have ht : Function.update files path content temp = files temp :=
      Function.update_of_ne htemp.symm _ _
    have hd : Function.update files path content args.dest = files args.dest :=
      Function.update_of_ne hpath.symm _ _
    have hsame : failed' ↔ failed := by
      rw [hfailed]
      exact or_iff_right nofun
    unfold Local at h ⊢
    simp only [ht, hd, hsame]
    exact h

theorem DownloadRun.local {rnd : Nat} (h : DownloadRun args (args.temp rnd) files hist st)
    (hremove : ∀ x ∈ hist, x.2.removeFails = false) :
    Local args (args.temp rnd) (files args.dest) (∃ x ∈ hist, x.2.renameFails = true) st := by
  induction h with
  | start h0 =>
    obtain ⟨rfl, hfresh⟩ := h0
    refine local_start hfresh fun hex => ?_
    obtain ⟨x, hx, -⟩ := hex
    exact absurd hx List.not_mem_nil
  | step _ hs ih =>
    rw [List.forall_mem_cons] at hremove
    refine (ih hremove.2).step (args.temp_ne rnd) hs hremove.1 ?_
    exact List.exists_mem_cons_iff _ _ _

/-- **What an error leaves.** In every run of a download that ends in an error, where the removal of
    the temporary file succeeds if it is attempted: the destination is as it was; and there is no
    temporary file exactly when the error is not that of the final rename. -/
theorem download_fails_clean_iff {rnd : Nat} (h : DownloadRun args (args.temp rnd) files hist st)
    (hremove : ∀ x ∈ hist, x.2.removeFails = false) {error : String}
    (hdone : st.download = .done (.error error)) :
    (st.files args.dest = files args.dest ∧ st.files (args.temp rnd) = none) ↔
      ∀ x ∈ hist, x.2.renameFails = false := by
  have hlocal := h.local hremove
  rw [Local, hdone] at hlocal
  obtain ⟨hdest, hfailed⟩ := hlocal
  constructor
  · intro hclean x hx
    by_contra hfails
    exact hfailed.mp ⟨x, hx, Bool.eq_true_of_not_eq_false hfails⟩ hclean.2
  · intro hnone
    refine ⟨hdest, ?_⟩
    by_contra htemp
    obtain ⟨x, hx, hfails⟩ := hfailed.mpr htemp
    rw [hnone x hx] at hfails
    cases hfails

/-! ## 4. The loop -/

/-- The offset a step asks the target for. -/
def DownloadState.asked (st : DownloadState) : DownloadEvent → Option Nat
  | .answer .. =>
      match st.download with
      | .calling offset => some offset
      | _ => none
  | _ => none

/-- **Where the loop is**, after the offsets in `hist`: the offset is the length of the temporary
    file, and beyond all that were asked for. -/
def Advances (temp : PathBuf) (hist : List (DownloadState × DownloadEvent)) (st : DownloadState) :
    Prop :=
  match st.download with
  | .calling offset =>
      (∃ got, st.files temp = some got ∧ got.length = offset) ∧
        ∀ x ∈ hist, ∀ o, x.1.asked x.2 = some o → o < offset
  | .writing offset data eof =>
      (∃ got, st.files temp = some got ∧ got.length = offset) ∧ (eof = false → data ≠ []) ∧
        ∀ x ∈ hist, ∀ o, x.1.asked x.2 = some o → o ≤ offset
  | .makingDirs _ | .creating => ∀ x ∈ hist, x.1.asked x.2 = none
  | _ => True

theorem Advances.step (h : Advances temp hist st) {e : DownloadEvent} {st' : DownloadState}
    (hs : DownloadStep args temp st e st') : Advances temp ((st, e) :: hist) st' := by
  obtain ⟨d, files⟩ := st
  have hsilent : ∀ {P : Nat → Prop}, (DownloadState.mk d files).asked e = none →
      (∀ x ∈ hist, ∀ o, x.1.asked x.2 = some o → P o) →
      ∀ x ∈ (DownloadState.mk d files, e) :: hist, ∀ o, x.1.asked x.2 = some o → P o := by
    intro P he hall
    rw [List.forall_mem_cons]
    refine ⟨fun o ho => ?_, hall⟩
    rw [he] at ho
    cases ho
  cases DownloadEffect.of_step hs with
  | dirsMade =>
    refine List.forall_mem_cons.mpr ⟨rfl, h⟩
  | created =>
    refine ⟨⟨[], Function.update_self .., rfl⟩, ?_⟩
    refine hsilent rfl fun x hx o ho => ?_
    rw [h x hx] at ho
    cases ho
  | @answered offset result why =>
    rcases answered_cases offset why result with ⟨error, heq⟩ | ⟨data, eof, heq, hdata⟩
    · rw [heq]
      trivial
    · rw [heq]
      refine ⟨h.1, hdata, ?_⟩
      rw [List.forall_mem_cons]
      refine ⟨fun o ho => ?_, fun x hx o ho => Nat.le_of_lt (h.2 x hx o ho)⟩
      exact Nat.le_of_eq (Option.some.inj ho).symm
  | @wrote offset data eof hsmall =>
    obtain ⟨⟨got, hgot, hlen⟩, hdata, hasked⟩ := h
    have hgot : files temp = some got := hgot
    have hbound := hsmall got hgot
    unfold DownloadFile.wrote
    dsimp only
    rw [hgot, Option.getD_some, Nat.mod_eq_of_lt (by omega)]
    cases eof with
    | true => trivial
    | false =>
      refine ⟨⟨got ++ data, Function.update_self .., ?_⟩, hsilent rfl fun x hx o ho => ?_⟩
      · rw [List.length_append, hlen]
      · have hle := hasked x hx o ho
        have hpos := List.length_pos_iff.mpr (hdata rfl)
        omega
  | @other d path content htemp hpath =>
    have ht : Function.update files path content temp = files temp :=
      Function.update_of_ne htemp.symm _ _
    have hmore : ∀ {P : Nat → Prop}, (∀ x ∈ hist, ∀ o, x.1.asked x.2 = some o → P o) →
        ∀ x ∈ (DownloadState.mk d files, DownloadEvent.other path content) :: hist,
          ∀ o, x.1.asked x.2 = some o → P o := fun hall => hsilent rfl hall
    cases d with
    | calling offset =>
      obtain ⟨⟨got, hgot, hlen⟩, hasked⟩ := h
      exact ⟨⟨got, ht.trans hgot, hlen⟩, hmore hasked⟩
    | writing offset data eof =>
      obtain ⟨⟨got, hgot, hlen⟩, hdata, hasked⟩ := h
      exact ⟨⟨got, ht.trans hgot, hlen⟩, hdata, hmore hasked⟩
    | makingDirs parent => exact List.forall_mem_cons.mpr ⟨rfl, h⟩
    | creating => exact List.forall_mem_cons.mpr ⟨rfl, h⟩
    | _ => trivial
  | _ => trivial

/-- **The loop advances**, whatever the target answers. -/
theorem DownloadRun.advances (h : DownloadRun args temp files hist st) : Advances temp hist st := by
  refine h.history_invariant (fun s h0 => ?_) fun hist s e s' ih hs => ih.step hs
  obtain ⟨rfl, -⟩ := h0
  unfold DownloadFile.first
  split <;> exact fun x hx => absurd hx List.not_mem_nil

/-! ## 5. A file that does not change -/

/-- No step on the local side fails. -/
def DownloadEvent.Succeeds : DownloadEvent → Prop
  | .makeDirs r | .create r | .sync r | .rename r => r = .ok ()
  | .write fails => fails = none
  | .answer .. | .remove _ | .other .. => True

/-- **The target answers from a file** that it can open, by one read that returns what `ok` says. -/
def Serves (args : DownloadFileArgs) (unreadable : String) (content : FileContent)
    (ok : List UInt8 → Nat → Nat → Nat → Prop) (st : DownloadState) (e : DownloadEvent) : Prop :=
  ∀ result why, e = .answer result why → ∀ offset, st.download = .calling offset →
    ∃ n, ok content.bytes offset transferChunkBytes n ∧
      result = readAnswer unreadable
        (.readFile args.remotePath (some offset) (some transferChunkBytes))
        ⟨.ok content, none, .ok n⟩

/-- An answer carries fewer bytes than were asked for, although there are more. -/
def ShortRead (content : List UInt8) (st : DownloadState) (e : DownloadEvent) : Prop :=
  ∃ offset v why read data, st.download = .calling offset ∧ e = .answer (.ok v) why ∧
    ReadFileResult.ofJson v = some read ∧ Base64.decode read.data = some data ∧
    ¬ FillsOrEnds content offset transferChunkBytes data.length

/-- **What has been fetched of a file**, phase by phase; `short` says that a read was short. -/
def Fetched (args : DownloadFileArgs) (temp : PathBuf) (content : List UInt8) (short : Prop)
    (st : DownloadState) : Prop :=
  match st.download with
  | .makingDirs _ | .creating => ¬ short
  | .calling offset =>
      offset ≤ content.length ∧ ¬ short ∧ st.files temp = some (content.take offset)
  | .writing offset data eof =>
      offset ≤ content.length ∧ st.files temp = some (content.take offset) ∧
        ∃ n, Returns content offset transferChunkBytes n ∧ data = (content.drop offset).take n ∧
          eof = decide (n < transferChunkBytes) ∧
          (short ↔ ¬ FillsOrEnds content offset transferChunkBytes n)
  | .syncing bytes | .replacing bytes =>
      bytes ≤ content.length ∧ (short ↔ bytes < content.length) ∧
        st.files temp = some (content.take bytes)
  | .done (.ok bytes) =>
      bytes ≤ content.length ∧ (short ↔ bytes < content.length) ∧
        st.files args.dest = some (content.take bytes)
  | .removing _ | .done (.error _) => False

variable {content : FileContent} {unreadable : String}

/-- The agent's answer to a request of the loop. -/
theorem serves_answer {offset n : Nat} (hoffset : offset ≤ content.bytes.length) :
    readAnswer unreadable (.readFile args.remotePath (some offset) (some transferChunkBytes))
        ⟨.ok content, none, .ok n⟩ =
      .ok (ReadFileResult.toJson
        ⟨Base64.encode ((content.bytes.drop offset).take n), decide (n < transferChunkBytes)⟩) :=
  readFile_answer (Nat.lt_of_le_of_lt hoffset content.small) (by decide)

/-- What the loop makes of it. -/
theorem answered_serves {offset n : Nat} {why : String}
    (hn : Returns content.bytes offset transferChunkBytes n) :
    DownloadFile.answered offset why (.ok (ReadFileResult.toJson
        ⟨Base64.encode ((content.bytes.drop offset).take n), decide (n < transferChunkBytes)⟩)) =
      .writing offset ((content.bytes.drop offset).take n) (decide (n < transferChunkBytes)) := by
  unfold DownloadFile.answered
  dsimp only
  rw [ReadFileResult.ofJson_toJson]
  dsimp only
  rw [Base64.decode_encode]
  dsimp only
  refine if_neg fun hempty => ?_
  -- an empty read is below the limit
  obtain ⟨hnil, hfull⟩ := hempty
  have hlen := hn.length
  rw [hnil] at hlen
  have hzero : 0 = n := hlen
  have hchunk : transferChunkBytes = 1024 * 1024 := rfl
  have hnot := of_decide_eq_false hfull
  omega

/-- Whether an answer is short. -/
theorem shortRead_answer {bytes data : List UInt8} {offset : Nat} {why : String}
    {read : ReadFileResult} (hdecode : Base64.decode read.data = some data) :
    ShortRead bytes ⟨.calling offset, files⟩ (.answer (.ok read.toJson) why) ↔
      ¬ FillsOrEnds bytes offset transferChunkBytes data.length := by
  constructor
  · intro h
    obtain ⟨o, v, w, read', data', ho, heq, hof, hdecode', hshort⟩ := h
    obtain rfl : offset = o := DownloadFile.calling.inj ho
    injection heq with hv
    injection hv with hv
    rw [← hv, ReadFileResult.ofJson_toJson] at hof
    obtain rfl := Option.some.inj hof
    obtain rfl : data = data' := Option.some.inj (hdecode.symm.trans hdecode')
    exact hshort
  · intro h
    exact ⟨offset, read.toJson, why, read, data, rfl, rfl, ReadFileResult.ofJson_toJson read,
      hdecode, h⟩

/-- Whether the answer to a read of `n` bytes is short. -/
theorem shortRead_served {offset n : Nat} {why : String}
    (hn : Returns content.bytes offset transferChunkBytes n) :
    ShortRead content.bytes ⟨.calling offset, files⟩ (.answer (.ok (ReadFileResult.toJson
        ⟨Base64.encode ((content.bytes.drop offset).take n), decide (n < transferChunkBytes)⟩)) why)
      ↔ ¬ FillsOrEnds content.bytes offset transferChunkBytes n := by
  generalize hread : (⟨Base64.encode ((content.bytes.drop offset).take n),
    decide (n < transferChunkBytes)⟩ : ReadFileResult) = read
  have hdecode : Base64.decode read.data = some ((content.bytes.drop offset).take n) := by
    rw [← hread]
    exact Base64.decode_encode _
  rw [shortRead_answer hdecode, hn.length]

/-- **One step** of a download from a file that does not change, by reads that may be short. -/
theorem Fetched.step {short short' : Prop} {e : DownloadEvent} {st' : DownloadState}
    (h : Fetched args temp content.bytes short st) (hs : DownloadStep args temp st e st')
    (hok : e.Succeeds) (hserves : Serves args unreadable content Returns st e)
    (hshort : short' ↔ ShortRead content.bytes st e ∨ short) :
    Fetched args temp content.bytes short' st' := by
  obtain ⟨d, files⟩ := st
  have hkept : (∀ result why, e ≠ .answer result why) → (short' ↔ short) := by
    intro he
    rw [hshort]
    refine or_iff_right fun hread => ?_
    obtain ⟨offset, v, why, read, data, -, heq, -⟩ := hread
    exact he _ _ heq
  cases DownloadEffect.of_step hs with
  | dirsMade =>
    have hsame := hkept nofun
    exact fun hs' => h (hsame.mp hs')
  | dirsFail | createFails | syncFails | renameFails => cases hok
  | writeFails => cases hok
  | created =>
    have hsame := hkept nofun
    exact ⟨Nat.zero_le _, fun hs' => h (hsame.mp hs'), Function.update_self ..⟩
  | @answered offset result why =>
    obtain ⟨n, hn, rfl⟩ := hserves _ _ rfl offset rfl
    obtain ⟨hle, hnot, htemp⟩ := h
    rw [serves_answer hle, answered_serves hn]
    refine ⟨hle, htemp, n, hn, rfl, rfl, ?_⟩
    rw [hshort, or_iff_left hnot, serves_answer hle, shortRead_served hn]
  | @wrote offset data eof =>
    obtain ⟨hle, htemp, n, hn, rfl, rfl, hsh⟩ := h
    have htemp : files temp = some (content.bytes.take offset) := htemp
    have hsmall := content.small
    have hthere := hn.there
    have hfits := hn.fits
    have hsame := (hkept nofun).trans hsh
    have hgot : (files temp).getD [] ++ (content.bytes.drop offset).take n =
        content.bytes.take (offset + n) := by
      rw [htemp, Option.getD_some, List.take_add]
    unfold DownloadFile.wrote
    dsimp only
    rw [hgot, hn.length, Nat.mod_eq_of_lt (by omega)]
    by_cases hend : n < transferChunkBytes
    · rw [decide_eq_true hend]
      refine ⟨by omega, ?_, Function.update_self ..⟩
      rw [hsame]
      unfold FillsOrEnds
      omega
    · rw [decide_eq_false hend]
      refine ⟨by omega, ?_, Function.update_self ..⟩
      rw [hsame]
      unfold FillsOrEnds
      omega
  | synced => exact ⟨h.1, (hkept nofun).trans h.2.1, h.2.2⟩
  | removed | removeFails => exact h.elim
  | renamed =>
    refine ⟨h.1, (hkept nofun).trans h.2.1, ?_⟩
    exact (Function.update_self ..).trans h.2.2
  | @other d path c htemp hpath =>
    have ht : Function.update files path c temp = files temp :=
      Function.update_of_ne htemp.symm _ _
    have hd : Function.update files path c args.dest = files args.dest :=
      Function.update_of_ne hpath.symm _ _
    have hsame := hkept nofun
    unfold Fetched at h ⊢
    simp only [ht, hd, hsame]
    exact h

theorem DownloadRun.fetched (h : DownloadRun args temp files hist st)
    (hgood : ∀ x ∈ hist, x.2.Succeeds ∧ Serves args unreadable content Returns x.1 x.2) :
    Fetched args temp content.bytes
      (∃ x ∈ hist, ShortRead content.bytes x.1 x.2) st := by
  induction h with
  | start h0 =>
    obtain ⟨rfl, -⟩ := h0
    unfold DownloadFile.first
    split
    · exact fun ⟨x, hx, _⟩ => absurd hx List.not_mem_nil
    · exact fun ⟨x, hx, _⟩ => absurd hx List.not_mem_nil
  | step _ hs ih =>
    rw [List.forall_mem_cons] at hgood
    refine (ih hgood.2).step hs hgood.1.1 hgood.1.2 ?_
    exact List.exists_mem_cons_iff _ _ _

theorem Serves.mono {ok ok' : List UInt8 → Nat → Nat → Nat → Prop} {e : DownloadEvent}
    (h : Serves args unreadable content ok st e)
    (hmono : ∀ {offset limit n}, ok content.bytes offset limit n →
      ok' content.bytes offset limit n) :
    Serves args unreadable content ok' st e := by
  intro result why he offset hcalling
  obtain ⟨n, hn, hresult⟩ := h result why he offset hcalling
  exact ⟨n, hmono hn, hresult⟩

/-- A target that reads all it can gives no short answer. -/
theorem Serves.not_short {e : DownloadEvent} (h : Serves args unreadable content AllThere st e) :
    ¬ ShortRead content.bytes st e := by
  intro hread
  obtain ⟨d, files⟩ := st
  obtain ⟨offset, v, why, read, data, hcalling, rfl, -, -, hshort⟩ := id hread
  obtain rfl : d = .calling offset := hcalling
  have hle : offset ≤ content.bytes.length := by
    unfold FillsOrEnds at hshort
    omega
  obtain ⟨n, hn, hresult⟩ := h _ _ rfl offset rfl
  rw [hresult, serves_answer hle, shortRead_served hn.returns] at hread
  exact hread hn.fillsOrEnds

/-- The steps a download of `len` bytes has ahead of it. -/
def DownloadFile.rank (len : Nat) : DownloadFile → Nat
  | makingDirs _ => 2 * (len / transferChunkBytes) + 6
  | creating => 2 * (len / transferChunkBytes) + 5
  | calling offset => 2 * ((len - offset) / transferChunkBytes) + 4
  | writing offset _ _ => 2 * ((len - offset) / transferChunkBytes) + 3
  | syncing _ => 2
  | replacing _ | removing _ => 1
  | done _ => 0

/-- **Every own step lowers the rank**: a read that is not the last is a whole chunk. -/
theorem Fetched.rank {short : Prop} {e : DownloadEvent} {st' : DownloadState}
    (h : Fetched args temp content.bytes short st) (hs : DownloadStep args temp st e st')
    (hok : e.Succeeds) (hserves : Serves args unreadable content Returns st e) :
    st'.download.rank content.bytes.length + (if e.own then 1 else 0) ≤
      st.download.rank content.bytes.length := by
  obtain ⟨d, files⟩ := st
  have hchunk : transferChunkBytes = 1048576 := rfl
  cases DownloadEffect.of_step hs with
  | dirsMade => exact Nat.le_refl _
  | dirsFail | createFails | syncFails | renameFails => cases hok
  | writeFails => cases hok
  | created => exact Nat.le_refl _
  | @answered offset result why =>
    obtain ⟨n, hn, rfl⟩ := hserves _ _ rfl offset rfl
    rw [serves_answer h.1, answered_serves hn]
    exact Nat.le_refl _
  | @wrote offset data eof =>
    obtain ⟨hle, -, n, hn, rfl, rfl, -⟩ := h
    have hsmall := content.small
    have hthere := hn.there
    have hfits := hn.fits
    unfold DownloadFile.wrote
    dsimp only
    rw [hn.length, Nat.mod_eq_of_lt (by omega)]
    by_cases hend : n < transferChunkBytes
    · rw [decide_eq_true hend]
      show 2 + 1 ≤ 2 * ((content.bytes.length - offset) / transferChunkBytes) + 3
      omega
    · rw [decide_eq_false hend]
      show 2 * ((content.bytes.length - (offset + n)) / transferChunkBytes) + 4 + 1 ≤
        2 * ((content.bytes.length - offset) / transferChunkBytes) + 3
      rw [hchunk] at hend hfits ⊢
      omega
  | synced => exact Nat.le_refl _
  | removed | removeFails => exact h.elim
  | renamed => exact Nat.le_refl _
  | other => exact Nat.le_refl _

theorem DownloadRun.rank (h : DownloadRun args temp files hist st)
    (hgood : ∀ x ∈ hist, x.2.Succeeds ∧ Serves args unreadable content Returns x.1 x.2) :
    hist.countP (·.2.own) + st.download.rank content.bytes.length ≤
      2 * (content.bytes.length / transferChunkBytes) + 6 := by
  induction h with
  | start h0 =>
    obtain ⟨rfl, -⟩ := h0
    rw [List.countP_nil]
    unfold DownloadFile.first
    split
    · exact Nat.le_of_eq (Nat.zero_add _)
    · show 0 + (2 * (content.bytes.length / transferChunkBytes) + 5) ≤ _
      omega
  | @step hist s s' e hr hs ih =>
    rw [List.forall_mem_cons] at hgood
    have hbefore := ih hgood.2
    have hstep := (DownloadRun.fetched hr hgood.2).rank hs hgood.1.1 hgood.1.2
    rw [List.countP_cons]
    dsimp only at hstep ⊢
    omega

/-- **A download that is not at its end can go on**, with a target that reads all it can. -/
theorem Fetched.enabled {short : Prop} (h : Fetched args temp content.bytes short st)
    (hopen : ∀ result, st.download ≠ .done result) :
    ∃ e : DownloadEvent, e.own = true ∧ st.permits args temp e ∧ e.Succeeds ∧
      Serves args unreadable content AllThere st e := by
  obtain ⟨d, files⟩ := st
  cases d with
  | makingDirs parent => exact ⟨.makeDirs (.ok ()), rfl, ⟨rfl, trivial⟩, rfl, nofun⟩
  | creating => exact ⟨.create (.ok ()), rfl, ⟨rfl, trivial⟩, rfl, nofun⟩
  | calling offset =>
    refine ⟨.answer (readAnswer unreadable
      (.readFile args.remotePath (some offset) (some transferChunkBytes))
      ⟨.ok content, none, .ok (min transferChunkBytes (content.bytes.length - offset))⟩) "",
      rfl, ⟨rfl, trivial⟩, trivial, ?_⟩
    intro result why he o ho
    injection he with hresult
    obtain rfl : offset = o := DownloadFile.calling.inj ho
    exact ⟨_, rfl, hresult.symm⟩
  | writing offset data eof =>
    obtain ⟨hle, htemp, n, hn, rfl, -, -⟩ := h
    refine ⟨.write none, rfl, ⟨rfl, fun got hgot => ?_⟩, rfl, nofun⟩
    obtain rfl : content.bytes.take offset = got := Option.some.inj (htemp.symm.trans hgot)
    have hthere := hn.there
    have hsmall := content.small
    show (content.bytes.take offset).length + ((content.bytes.drop offset).take n).length < 2 ^ 63
    rw [hn.length, List.length_take]
    omega
  | syncing bytes => exact ⟨.sync (.ok ()), rfl, ⟨rfl, trivial⟩, rfl, nofun⟩
  | replacing bytes => exact ⟨.rename (.ok ()), rfl, ⟨rfl, trivial⟩, rfl, nofun⟩
  | removing error => exact h.elim
  | done result => exact absurd rfl (hopen result)

/-- **The loop ends with the whole file.** In every run in which no local step fails and the target
    reads all it can of a file that does not change: a download that has returned has returned the
    length of the file, and the destination is the file; it takes at most so many steps; and where
    it has not returned it can go on. And whatever a target answers, each READ_FILE asks beyond all
    that were asked before. -/
theorem download_file_whole {rnd : Nat} (h : DownloadRun args (args.temp rnd) files hist st) :
    ((∀ x ∈ hist, x.2.Succeeds ∧ Serves args unreadable content AllThere x.1 x.2) →
      (∀ result, st.download = .done result →
        result = .ok content.bytes.length ∧ st.files args.dest = some content.bytes) ∧
      hist.countP (·.2.own) ≤ 2 * (content.bytes.length / transferChunkBytes) + 6 ∧
      ((∀ result, st.download ≠ .done result) →
        ∃ e : DownloadEvent, e.own = true ∧ st.permits args (args.temp rnd) e ∧ e.Succeeds ∧
          Serves args unreadable content AllThere st e)) ∧
    ∀ offset, st.download = .calling offset →
      ∀ x ∈ hist, ∀ o, x.1.asked x.2 = some o → o < offset := by
  constructor
  · intro hall
    have hgood : ∀ x ∈ hist, x.2.Succeeds ∧ Serves args unreadable content Returns x.1 x.2 :=
      fun x hx => ⟨(hall x hx).1, (hall x hx).2.mono AllThere.returns⟩
    have hfetched := h.fetched hgood
    have hrank := h.rank hgood
    refine ⟨fun result hdone => ?_, by omega, hfetched.enabled⟩
    rw [Fetched, hdone] at hfetched
    cases result with
    | error e => exact hfetched.elim
    | ok bytes =>
      obtain ⟨hle, hshort, hdest⟩ := hfetched
      have hwhole : ¬ bytes < content.bytes.length := fun hlt => by
        obtain ⟨x, hx, hread⟩ := hshort.mpr hlt
        exact (hall x hx).2.not_short hread
      obtain rfl : bytes = content.bytes.length := by omega
      rw [List.take_length] at hdest
      exact ⟨rfl, hdest⟩
  · intro offset hcalling
    have hadvances := h.advances
    rw [Advances, hcalling] at hadvances
    exact hadvances.2

/-- **When `eof` can be trusted.** An answer of `read_file` says `eof` only at the end of the file
    exactly when its read fills the limit or comes to the end; and a download that no local step
    fails is the whole file exactly when none of its reads was short. -/
theorem eof_honest_iff {rnd : Nat} (h : DownloadRun args (args.temp rnd) files hist st)
    (hgood : ∀ x ∈ hist, x.2.Succeeds ∧ Serves args unreadable content Returns x.1 x.2) :
    (∀ path offset limit n, offset < 2 ^ 64 → 1 ≤ limit → limit ≤ maxDirectFileBytes →
      Returns content.bytes offset limit n →
      (EofHonest content.bytes offset (Agent.readFile unreadable
        (BridgeRequest.readFile path (some offset) (some limit)).params
        ⟨.ok content, none, .ok n⟩) ↔ FillsOrEnds content.bytes offset limit n)) ∧
    ∀ bytes, st.download = .done (.ok bytes) →
      (st.files args.dest = some content.bytes ↔
        ∀ x ∈ hist, ¬ ShortRead content.bytes x.1 x.2) := by
  refine ⟨fun path offset limit n hoffset _ hlimit hn => eofHonest_iff hoffset hlimit hn, ?_⟩
  intro bytes hdone
  have hfetched := h.fetched hgood
  rw [Fetched, hdone] at hfetched
  obtain ⟨hle, hshort, hdest⟩ := hfetched
  have hwhole : (∀ x ∈ hist, ¬ ShortRead content.bytes x.1 x.2) ↔
      ¬ bytes < content.bytes.length := by
    rw [← hshort]
    push Not
    exact Iff.rfl
  rw [hwhole, hdest]
  constructor
  · intro heq hlt
    have hlen := congrArg List.length (Option.some.inj heq)
    rw [List.length_take] at hlen
    omega
  · intro hnot
    rw [List.take_of_length_le (Nat.not_lt.mp hnot)]

end Download

/-! ## 6. Four downloads -/

def smallDownload : DownloadFileArgs := ⟨"/r", "out", none⟩

def shortFile : FileContent := ⟨[1, 2, 3], by decide⟩

/-- The target's answer to the first READ_FILE, from a read of `n` bytes. -/
def servedWith (n : Nat) : Except RpcError Json :=
  readAnswer "" (.readFile "/r" (some 0) (some transferChunkBytes)) ⟨.ok shortFile, none, .ok n⟩

/-- A download by one read of `n` bytes, newest step first. -/
def fetchedWith (n : Nat) (renamed : Except String Unit) : List DownloadEvent :=
  [.rename renamed, .sync (.ok ()), .write none, .answer (servedWith n) "", .create (.ok ())]

/-- The local files before: there is a destination. -/
def localBefore : LocalFiles := Function.update (fun _ => none) smallDownload.dest (some [9])

/-- The history and the state of the download after these steps. -/
def downloaded (es : List DownloadEvent) : List (DownloadState × DownloadEvent) × DownloadState :=
  replay (DownloadState.next smallDownload (smallDownload.temp 5))
    ⟨.first smallDownload, localBefore⟩ es

/-- The steps can be taken one after the other. -/
abbrev Downloads (es : List DownloadEvent) : Prop :=
  Permitted (DownloadState.permits smallDownload (smallDownload.temp 5))
    (DownloadState.next smallDownload (smallDownload.temp 5)) ⟨.first smallDownload, localBefore⟩ es

theorem Downloads.run {es : List DownloadEvent} (hok : Downloads es) :
    DownloadRun smallDownload (smallDownload.temp 5) localBefore (downloaded es).1
      (downloaded es).2 :=
  Run.of_replay ⟨rfl, Function.update_of_ne (smallDownload.temp_ne 5) _ _⟩ hok

/-- The answer of a download by one read comes from the file. -/
theorem fetchedWith_serves {n : Nat} {ok : List UInt8 → Nat → Nat → Nat → Prop}
    (hn : ok [1, 2, 3] 0 transferChunkBytes n) :
    ∀ x ∈ (downloaded (fetchedWith n (.ok ()))).1,
      x.2.Succeeds ∧ Serves smallDownload "" shortFile ok x.1 x.2 := by
  intro x hx
  simp only [downloaded, fetchedWith, replay, List.mem_cons, List.not_mem_nil, or_false] at hx
  rcases hx with rfl | rfl | rfl | rfl | rfl
  · exact ⟨rfl, fun _ _ he => by cases he⟩
  · exact ⟨rfl, fun _ _ he => by cases he⟩
  · exact ⟨rfl, fun _ _ he => by cases he⟩
  · refine ⟨trivial, fun result why he offset hcalling => ?_⟩
    obtain rfl : 0 = offset := DownloadFile.calling.inj hcalling
    injection he with hresult
    exact ⟨n, hn, hresult.symm⟩
  · exact ⟨rfl, fun _ _ he => by cases he⟩

theorem download_file_whole_three :
    (downloaded (fetchedWith 3 (.ok ()))).2.files smallDownload.dest = some [1, 2, 3] := by
  have hok : Downloads (fetchedWith 3 (.ok ())) := by decide
  have hall : AllThere [1, 2, 3] 0 transferChunkBytes 3 := by
    unfold AllThere
    decide
  have hserves := fetchedWith_serves hall
  exact (((download_file_whole hok.run).1 hserves).1 _ rfl).2

/-- The target answers with an error, and the temporary file is removed. -/
def refusedFetch : List DownloadEvent :=
  [.remove (.ok ()), .answer (.error ⟨Code.internalError, notFound⟩) "", .create (.ok ())]

theorem download_fails_clean_refused :
    (downloaded refusedFetch).2.files smallDownload.dest = some [9] ∧
      (downloaded refusedFetch).2.files (smallDownload.temp 5) = none := by
  have hok : Downloads refusedFetch := by decide
  have hremove : ∀ x ∈ (downloaded refusedFetch).1, x.2.removeFails = false := by decide
  have hrename : ∀ x ∈ (downloaded refusedFetch).1, x.2.renameFails = false := by decide
  exact (download_fails_clean_iff hok.run hremove rfl).mpr hrename

/-- **A rename that fails leaves the temporary file**: the destination is a directory, say. -/
theorem rename_leaves_temporary : ∃ args rnd files hist st error,
    DownloadRun args (args.temp rnd) files hist st ∧ (∀ x ∈ hist, x.2.removeFails = false) ∧
      st.download = .done (.error error) ∧ st.files (args.temp rnd) = some [1, 2, 3] := by
  have hok : Downloads (fetchedWith 3 (.error "Is a directory (os error 21)")) := by decide
  refine ⟨smallDownload, 5, localBefore, _, _, _, hok.run, ?_, rfl, ?_⟩
  · decide
  · decide

theorem eof_honest_three :
    (downloaded (fetchedWith 3 (.ok ()))).2.files smallDownload.dest = some [1, 2, 3] := by
  have hok : Downloads (fetchedWith 3 (.ok ())) := by decide
  have hall : AllThere [1, 2, 3] 0 transferChunkBytes 3 := by
    unfold AllThere
    decide
  have hserves := fetchedWith_serves hall
  have hgood := fun x hx => And.intro (hserves x hx).1 ((hserves x hx).2.mono AllThere.returns)
  refine ((eof_honest_iff hok.run hgood).2 3 rfl).mpr fun x hx => ?_
  exact (hserves x hx).2.not_short

/-- **A short read passes for the end of the file**: an answer says `eof` after two bytes of three;
    and a download of them returns. -/
theorem short_read_truncates :
    ¬ EofHonest [1, 2, 3] 0 (Agent.readFile ""
      (BridgeRequest.readFile "/r" (some 0) (some 3)).params ⟨.ok shortFile, none, .ok 2⟩) ∧
    ∃ hist st, DownloadRun smallDownload (smallDownload.temp 5) localBefore hist st ∧
      (∀ x ∈ hist, x.2.Succeeds ∧ Serves smallDownload "" shortFile Returns x.1 x.2) ∧
      st.download = .done (.ok 2) ∧ st.files smallDownload.dest = some [1, 2] := by
  have hread : Returns shortFile.bytes 0 3 2 := ⟨by decide, by decide, by decide⟩
  have hread' : Returns [1, 2, 3] 0 transferChunkBytes 2 := ⟨by decide, by decide, by decide⟩
  have hok : Downloads (fetchedWith 2 (.ok ())) := by decide
  refine ⟨fun hhonest => ?_, _, _, hok.run, fetchedWith_serves hread', rfl, by decide⟩
  have hfills := (eofHonest_iff (by decide) (by decide) hread).mp hhonest
  exact absurd hfills (by unfold FillsOrEnds; decide)

end Relayfs
