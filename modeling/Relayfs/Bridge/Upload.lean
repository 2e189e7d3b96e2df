/-
  File:      Relayfs/Bridge/Upload.lean
  Subject:   `upload_file` (bridge/src/mcp.rs) against a target on which any step may fail.

  The upload writes a temporary file beside the destination and renames it. A call may return the
  agent's own answer, or an error of the way there or back: then the agent may still execute the
  request, at any later time or never.

  * `UploadFile` -- where an upload is, with the request it waits for and what it does next;
  * `TransferState`, `TransferRun` -- the upload, the target's files and the requests whose answer
    was lost;
  * `TransferInv` -- the temporary file holds what was read so far; a rename is only ever sent of
    the whole;
  * `upload_file_atomic` -- the destination holds what it held before, or the whole source.
-/
import Mathlib.Algebra.Order.Group.Nat
import Relayfs.Lib.Run
import Relayfs.Agent.Files

namespace Relayfs

open Lib

/-! ## 1. The upload -/

/-- `UploadFileArgs`. -/
structure UploadFileArgs where
  localPath : String
  remotePath : String
  createDirs : Option Bool

/-- `{:016x}`. -/
def hex16 (n : Nat) : String :=
  let digits := String.ofList (Nat.toDigits 16 n)
  "".pushn '0' (16 - digits.length) ++ digits

/-- The temporary file, for the random number of its name. -/
def UploadFileArgs.remoteTemp (args : UploadFileArgs) (rnd : Nat) : String :=
  args.remotePath ++ ".relayfs-upload-" ++ hex16 rnd

/-- **Where an upload is**: what it waits for, with what it has still to hand. -/
inductive UploadFile where
  | opening
  | creating
  | reading (offset : Nat)
  | writing (offset : Nat) (data : List UInt8)
  | truncating (offset : Nat)
  | installing (bytes : Nat)
  | removing (error : String)
  | done (result : Except String Nat)

namespace UploadFile

/-- The request whose answer the upload waits for. -/
def request (args : UploadFileArgs) (remoteTemp : String) : UploadFile → Option BridgeRequest
  | creating => some (.writeFile remoteTemp "" args.createDirs)
  | writing offset data => some (.writeAt remoteTemp offset (Base64.encode data))
  | truncating offset => some (.truncate remoteTemp offset)
  | installing _ => some (.rename remoteTemp args.remotePath)
  | removing _ => some (.remove remoteTemp (some false))
  | opening | reading _ | done _ => none

/-- What the upload does when its call returns. The offset is a `u64`. -/
def returned : UploadFile → Except RpcError Json → UploadFile
  | creating, .ok _ => reading 0
  | writing offset data, .ok _ => reading ((offset + data.length) % 2 ^ 64)
  | truncating offset, .ok _ => installing offset
  | installing bytes, .ok _ => done (.ok bytes)
  | removing error, _ => done (.error error)
  | creating, .error e | writing _ _, .error e | truncating _, .error e | installing _, .error e =>
      removing e.message
  | u, _ => u

/-- What the upload does with its open local source. -/
def opened (args : UploadFileArgs) : Except String Unit → UploadFile
  | .ok _ => creating
  | .error e => done (.error ("open local source " ++ args.localPath ++ ": " ++ e))

/-- What the upload does with a read of the source at `offset` of the target. -/
def read (args : UploadFileArgs) (offset : Nat) : Except String (List UInt8) → UploadFile
  | .ok [] => truncating offset
  | .ok data => writing offset data
  | .error e => removing ("read local source " ++ args.localPath ++ ": " ++ e)

/-- The upload waits for its source to be opened, or to be read. -/
def opens : UploadFile → Bool
  | opening => true
  | _ => false

def reads : UploadFile → Bool
  | reading _ => true
  | _ => false

end UploadFile

/-! ## 2. Runs -/

/-- The upload and the target. `late` holds the requests whose answer was lost and that are not
    executed yet; `source` and `ended` are ghosts: the bytes read from the local source so far, and
    whether a read has come to its end. -/
structure TransferState where
  upload : UploadFile
  files : Files
  late : List BridgeRequest
  source : List UInt8
  ended : Bool

inductive TransferEvent where
  /-- The local source is opened. -/
  | openSource (result : Except String Unit)
  /-- The local source is read. -/
  | readSource (result : Except String (List UInt8))
  /-- The agent executes the request, and the call returns its answer. -/
  | answer (fault : Option Fault)
  /-- The call returns an error, and the agent may still execute the request. -/
  | lose (error : RpcError)
  /-- The agent executes a request whose answer was lost. -/
  | late (req : BridgeRequest) (fault : Option Fault)
  /-- Somebody else changes another file. -/
  | other (path : String) (content : Option (List UInt8))

section Transfer

variable (args : UploadFileArgs) (remoteTemp : String)

/-- When an event can happen. Nobody else touches the temporary file or the destination. -/
def TransferState.permits (st : TransferState) : TransferEvent → Prop
  | .openSource _ => st.upload.opens
  | .readSource result =>
      st.upload.reads ∧ ∀ data ∈ result.toOption, data.length ≤ transferChunkBytes
  | .answer fault => ∃ req ∈ st.upload.request args remoteTemp, (execute st.files req fault).isSome
  | .lose _ => (st.upload.request args remoteTemp).isSome
  | .late req fault => req ∈ st.late ∧ (execute st.files req fault).isSome
  | .other path _ => path ≠ remoteTemp ∧ path ≠ args.remotePath

instance TransferState.decPermits (st : TransferState) :
    ∀ e, Decidable (st.permits args remoteTemp e)
  | .openSource _ => inferInstanceAs (Decidable (_ = true))
  | .readSource _ => inferInstanceAs (Decidable (_ ∧ _))
  | .answer _ => inferInstanceAs (Decidable (∃ req ∈ st.upload.request args remoteTemp, _))
  | .lose _ => inferInstanceAs (Decidable (_ = true))
  | .late _ _ => inferInstanceAs (Decidable (_ ∧ _))
  | .other _ _ => inferInstanceAs (Decidable (_ ∧ _))

/-- What an event does. -/
def TransferState.next (st : TransferState) : TransferEvent → TransferState
  | .openSource result => { st with upload := .opened args result }
  | .readSource result =>
      match st.upload with
      | .reading offset =>
          { st with
            upload := .read args offset result
            source := st.source ++ (result.toOption.getD [])
            ended := st.ended || result.toOption == some [] }
      | _ => st
  | .answer fault =>
      match (st.upload.request args remoteTemp).bind fun req => execute st.files req fault with
      | some (files, answer) => { st with upload := st.upload.returned answer, files := files }
      | none => st
  | .lose error =>
      { st with
        upload := st.upload.returned (.error error)
        late := (st.upload.request args remoteTemp).toList ++ st.late }
  | .late req fault =>
      match execute st.files req fault with
      | some (files, _) => { st with files := files, late := st.late.erase req }
      | none => st
  | .other path content => { st with files := Function.update st.files path content }

/-- An upload that has just been asked for. -/
def TransferState.start (files : Files) : TransferState := ⟨.opening, files, [], [], false⟩

def TransferInit (files : Files) (st : TransferState) : Prop := st = .start files

/-- **Runs of an upload** from the target's files `files`. -/
abbrev TransferRun (files : Files) (hist : List (TransferState × TransferEvent))
    (st : TransferState) : Prop :=
  Run (TransferInit files)
    (Moves (TransferState.permits args remoteTemp) (TransferState.next args remoteTemp)) hist st

end Transfer

/-! ## 3. The invariant -/

/-- The temporary file is not the destination. -/
theorem UploadFileArgs.remoteTemp_ne (args : UploadFileArgs) (rnd : Nat) :
    args.remoteTemp rnd ≠ args.remotePath := by
  intro h
  have hlen : (args.remoteTemp rnd).length = args.remotePath.length := congrArg String.length h
  rw [UploadFileArgs.remoteTemp, String.length_append, String.length_append] at hlen
  have hpos : ".relayfs-upload-".length = 16 := rfl
  omega

section Transfer

variable {args : UploadFileArgs} {remoteTemp : String} {before : Option (List UInt8)}

/-- **What an upload has done**, phase by phase, for a destination that held `before`. -/
def Progress (args : UploadFileArgs) (remoteTemp : String) (before : Option (List UInt8))
    (st : TransferState) : Prop :=
  match st.upload with
  | .opening | .creating =>
      st.late = [] ∧ st.files args.remotePath = before ∧ st.source = []
  | .reading offset =>
      st.late = [] ∧ st.files args.remotePath = before ∧
        st.files remoteTemp = some st.source ∧ offset = st.source.length
  | .writing offset data =>
      st.late = [] ∧ st.files args.remotePath = before ∧ data.length ≤ transferChunkBytes ∧
        ∃ sent, st.source = sent ++ data ∧ st.files remoteTemp = some sent ∧ offset = sent.length
  | .truncating offset | .installing offset =>
      st.late = [] ∧ st.files args.remotePath = before ∧ st.ended = true ∧
        st.files remoteTemp = some st.source ∧ offset = st.source.length
  | .done (.ok bytes) =>
      st.late = [] ∧ st.ended = true ∧ st.files args.remotePath = some st.source ∧
        bytes = st.source.length
  | .removing _ | .done (.error _) =>
      st.files args.remotePath = before ∨
        (st.ended = true ∧ st.files args.remotePath = some st.source)

/-- **What lost requests can still do**: they touch the temporary file only, or else they are the
    rename of the whole and the removal. -/
structure LateSafe (args : UploadFileArgs) (remoteTemp : String) (st : TransferState) : Prop where
  known : ∀ req ∈ st.late, OnlyTouches remoteTemp req ∨
    req = .rename remoteTemp args.remotePath
  whole : .rename remoteTemp args.remotePath ∈ st.late → st.ended = true ∧
    (st.files remoteTemp = none ∨ st.files remoteTemp = some st.source) ∧
    ∀ req ∈ st.late, req = .rename remoteTemp args.remotePath ∨
      req = .remove remoteTemp (some false)

structure TransferInv (args : UploadFileArgs) (remoteTemp : String)
    (before : Option (List UInt8)) (st : TransferState) : Prop where
  progress : Progress args remoteTemp before st
  late : LateSafe args remoteTemp st

variable {st : TransferState}

/-- What the destination holds in every phase. -/
theorem Progress.delivered (h : Progress args remoteTemp before st) :
    st.files args.remotePath = before ∨
      (st.ended = true ∧ st.files args.remotePath = some st.source) := by
  unfold Progress at h
  split at h
  · exact .inl h.2.1
  · exact .inl h.2.1
  · exact .inl h.2.1
  · exact .inl h.2.1
  · exact .inl h.2.1
  · exact .inl h.2.1
  · exact .inr ⟨h.2.1, h.2.2.1⟩
  · exact h
  · exact h

/-- No request is lost before the upload has failed. -/
theorem Progress.failed_of_late (h : Progress args remoteTemp before st) (hl : st.late ≠ []) :
    ∃ error, st.upload = .removing error ∨ st.upload = .done (.error error) := by
  unfold Progress at h
  split at h
  · exact absurd h.1 hl
  · exact absurd h.1 hl
  · exact absurd h.1 hl
  · exact absurd h.1 hl
  · exact absurd h.1 hl
  · exact absurd h.1 hl
  · exact absurd h.1 hl
  · rename_i error hu
    exact ⟨error, .inl hu⟩
  · rename_i error hu
    exact ⟨error, .inr hu⟩

theorem LateSafe.of_nil (h : st.late = []) : LateSafe args remoteTemp st where
  known req hreq := by
    rw [h] at hreq
    exact absurd hreq List.not_mem_nil
  whole hreq := by
    rw [h] at hreq
    exact absurd hreq List.not_mem_nil

/-- An upload that fails with nothing lost and the destination untouched. -/
theorem TransferInv.fail {files : Files} {source : List UInt8} {ended : Bool} {error : String}
    (hdest : files args.remotePath = before) :
    TransferInv args remoteTemp before ⟨.removing error, files, [], source, ended⟩ :=
  ⟨Or.inl hdest, .of_nil rfl⟩

theorem TransferInv.openSource (h : TransferInv args remoteTemp before st)
    {result : Except String Unit} (hok : st.permits args remoteTemp (.openSource result)) :
    TransferInv args remoteTemp before (st.next args remoteTemp (.openSource result)) := by
  obtain ⟨upload, files, late, source, ended⟩ := st
  cases upload with
  | opening =>
    obtain ⟨hlate, hdest, hsource⟩ := h.progress
    have hlate : late = [] := hlate
    cases result with
    | ok _ => exact ⟨⟨hlate, hdest, hsource⟩, .of_nil hlate⟩
    | error e => exact ⟨Or.inl hdest, .of_nil hlate⟩
  | _ => cases hok

theorem TransferInv.readSource (h : TransferInv args remoteTemp before st)
    {result : Except String (List UInt8)}
    (hok : st.permits args remoteTemp (.readSource result)) :
    TransferInv args remoteTemp before (st.next args remoteTemp (.readSource result)) := by
  obtain ⟨upload, files, late, source, ended⟩ := st
  cases upload with
  | reading offset =>
    obtain ⟨hlate, hdest, htemp, hoffset⟩ := h.progress
    have hlate : late = [] := hlate
    have htemp : files remoteTemp = some source := htemp
    have hoffset : offset = source.length := hoffset
    cases result with
    | error e => exact ⟨Or.inl hdest, .of_nil hlate⟩
    | ok data =>
      have hlen : data.length ≤ transferChunkBytes := hok.2 data rfl
      cases data with
      | nil =>
        refine ⟨⟨hlate, hdest, Bool.or_true _, ?_, ?_⟩, .of_nil hlate⟩
        · show files remoteTemp = some (source ++ [])
          rw [List.append_nil]
          exact htemp
        · show offset = (source ++ []).length
          rw [List.append_nil]
          exact hoffset
      | cons b data =>
        exact ⟨⟨hlate, hdest, hlen, source, rfl, htemp, hoffset⟩, .of_nil hlate⟩
  | _ => cases hok.1

/-- The call returns the agent's answer. -/
theorem TransferInv.answer (h : TransferInv args remoteTemp before st)
    (hne : remoteTemp ≠ args.remotePath) {fault : Option Fault}
    (hok : st.permits args remoteTemp (.answer fault)) :
    TransferInv args remoteTemp before (st.next args remoteTemp (.answer fault)) := by
  obtain ⟨upload, files, late, source, ended⟩ := st
  obtain ⟨req, hreq, hsome⟩ := hok
  obtain ⟨⟨files', answer⟩, hexec⟩ := Option.isSome_iff_exists.mp hsome
  have hexec : execute files req fault = some (files', answer) := hexec
  have hreq : upload.request args remoteTemp = some req := hreq
  have hnext : (TransferState.mk upload files late source ended).next args remoteTemp
      (.answer fault) = ⟨upload.returned answer, files', late, source, ended⟩ := by
    simp only [TransferState.next, hreq, Option.bind_some, hexec]
  have hframe : OnlyTouches remoteTemp req →
      files' args.remotePath = files args.remotePath :=
    fun ht => execute_frame ht hexec hne.symm
  rw [hnext]
  cases upload with
  | opening => cases hreq
  | reading offset => cases hreq
  | done result => cases hreq
  | creating =>
    cases hreq
    obtain ⟨hlate, hdest, hsource⟩ := h.progress
    obtain rfl : late = [] := hlate
    obtain rfl : source = [] := hsource
    have hdest' : files' args.remotePath = before := (hframe rfl).trans hdest
    cases answer with
    | error e => exact .fail hdest'
    | ok v =>
      obtain ⟨bytes, hbytes, hfiles⟩ := execute_writeFile_ok hexec
      obtain rfl : [] = bytes := Option.some.inj ((Base64.decode_encode []).symm.trans hbytes)
      refine ⟨⟨rfl, hdest', ?_, rfl⟩, .of_nil rfl⟩
      show files' remoteTemp = some []
      rw [hfiles, Function.update_self]
  | writing offset data =>
    cases hreq
    obtain ⟨hlate, hdest, hlen, sent, hsource, htemp, hoffset⟩ := h.progress
    obtain rfl : late = [] := hlate
    obtain rfl : source = sent ++ data := hsource
    obtain rfl : offset = sent.length := hoffset
    have hdest' : files' args.remotePath = before := (hframe rfl).trans hdest
    cases answer with
    | error e => exact .fail hdest'
    | ok v =>
      obtain ⟨bytes, content, hbytes, hcontent, hlt, hfiles⟩ := execute_writeAt_ok hexec
      obtain rfl : data = bytes := Option.some.inj ((Base64.decode_encode data).symm.trans hbytes)
      obtain rfl : sent = content := Option.some.inj (htemp.symm.trans hcontent)
      refine ⟨⟨rfl, hdest', ?_, ?_⟩, .of_nil rfl⟩
      · show files' remoteTemp = some (sent ++ data)
        rw [hfiles, Function.update_self, writeAt_end]
      · -- the agent takes no offset beyond a seek, so the next one does not wrap
        show (sent.length + data.length) % 2 ^ 64 = (sent ++ data).length
        have hchunk : data.length ≤ 1024 * 1024 := hlen
        rw [List.length_append]
        exact Nat.mod_eq_of_lt (by omega)
  | truncating offset =>
    cases hreq
    obtain ⟨hlate, hdest, hended, htemp, hoffset⟩ := h.progress
    obtain rfl : late = [] := hlate
    obtain rfl : offset = source.length := hoffset
    have hdest' : files' args.remotePath = before := (hframe rfl).trans hdest
    cases answer with
    | error e => exact .fail hdest'
    | ok v =>
      obtain ⟨content, hcontent, hfiles⟩ := execute_truncate_ok hexec
      obtain rfl : source = content := Option.some.inj (htemp.symm.trans hcontent)
      refine ⟨⟨rfl, hdest', hended, ?_, rfl⟩, .of_nil rfl⟩
      show files' remoteTemp = some source
      rw [hfiles, Function.update_self, resize_length]
  | installing bytes =>
    cases hreq
    obtain ⟨hlate, hdest, hended, htemp, hbytes⟩ := h.progress
    obtain rfl : late = [] := hlate
    rcases execute_rename hexec with ⟨content, hcontent, ⟨v, hv⟩, hfiles⟩ | ⟨hfiles, e, he⟩
    · obtain rfl : answer = .ok v := hv
      obtain rfl : source = content := Option.some.inj (htemp.symm.trans hcontent)
      refine ⟨⟨rfl, hended, ?_, hbytes⟩, .of_nil rfl⟩
      have hfiles : files' = _ := hfiles
      show files' args.remotePath = some source
      rw [hfiles, Function.update_self]
    · obtain rfl : answer = .error e := he
      obtain rfl : files' = files := hfiles
      exact .fail hdest
  | removing error =>
    cases hreq
    have hdest' : files' args.remotePath = files args.remotePath := hframe rfl
    have htemp : files' remoteTemp = none ∨ files' remoteTemp = files remoteTemp :=
      execute_remove_self hexec
    refine ⟨?_, ⟨h.late.known, fun hren => ?_⟩⟩
    · show files' args.remotePath = before ∨
        (ended = true ∧ files' args.remotePath = some source)
      rw [hdest']
      exact h.progress
    · obtain ⟨hended, hwhole, honly⟩ := h.late.whole hren
      refine ⟨hended, ?_, honly⟩
      rcases htemp with htemp | htemp
      · exact .inl htemp
      · show files' remoteTemp = none ∨ files' remoteTemp = some source
        rw [htemp]
        exact hwhole

/-- The call returns an error, and the request may be executed later. -/
theorem TransferInv.lose (h : TransferInv args remoteTemp before st) {error : RpcError}
    (hok : st.permits args remoteTemp (.lose error)) :
    TransferInv args remoteTemp before (st.next args remoteTemp (.lose error)) := by
  obtain ⟨upload, files, late, source, ended⟩ := st
  have hfirst : ∀ req, OnlyTouches remoteTemp req → late = [] →
      files args.remotePath = before →
      TransferInv args remoteTemp before
        ⟨.removing error.message, files, req :: late, source, ended⟩ := by
    intro req ht heq' hdest
    subst heq'
    refine ⟨Or.inl hdest, ⟨fun r hr => ?_, fun hren => ?_⟩⟩
    · rw [List.mem_singleton.mp hr]
      exact .inl ht
    · rw [← List.mem_singleton.mp hren] at ht
      exact absurd ht id
  cases upload with
  | opening => cases hok
  | reading offset => cases hok
  | done result => cases hok
  | creating =>
    obtain ⟨hlate, hdest, -⟩ := h.progress
    exact hfirst _ rfl hlate hdest
  | writing offset data =>
    obtain ⟨hlate, hdest, -⟩ := h.progress
    exact hfirst _ rfl hlate hdest
  | truncating offset =>
    obtain ⟨hlate, hdest, -⟩ := h.progress
    exact hfirst _ rfl hlate hdest
  | installing bytes =>
    obtain ⟨hlate, hdest, hended, htemp, -⟩ := h.progress
    obtain rfl : late = [] := hlate
    refine ⟨Or.inl hdest, ⟨fun r hr => .inr (List.mem_singleton.mp hr), fun _ => ?_⟩⟩
    exact ⟨hended, .inr htemp, fun r hr => .inl (List.mem_singleton.mp hr)⟩
  | removing e =>
    refine ⟨h.progress, ⟨fun r hr => ?_, fun hren => ?_⟩⟩
    · rcases List.mem_cons.mp hr with rfl | hr
      · exact .inl rfl
      · exact h.late.known r hr
    · rcases List.mem_cons.mp hren with heq | hren
      · cases heq
      · obtain ⟨hended, hwhole, honly⟩ := h.late.whole hren
        refine ⟨hended, hwhole, fun r hr => ?_⟩
        rcases List.mem_cons.mp hr with rfl | hr
        · exact .inr rfl
        · exact honly r hr

/-- A request whose answer was lost is executed. -/
theorem TransferInv.lateCall (h : TransferInv args remoteTemp before st)
    (hne : remoteTemp ≠ args.remotePath) {req : BridgeRequest} {fault : Option Fault}
    (hok : st.permits args remoteTemp (.late req fault)) :
    TransferInv args remoteTemp before (st.next args remoteTemp (.late req fault)) := by
  obtain ⟨upload, files, late, source, ended⟩ := st
  obtain ⟨hmem, hsome⟩ := hok
  obtain ⟨⟨files', answer⟩, hexec⟩ := Option.isSome_iff_exists.mp hsome
  have hmem : req ∈ late := hmem
  have hexec : execute files req fault = some (files', answer) := hexec
  have hnext : (TransferState.mk upload files late source ended).next args remoteTemp
      (.late req fault) = ⟨upload, files', late.erase req, source, ended⟩ := by
    simp only [TransferState.next, hexec]
  rw [hnext]
  -- only an upload that has failed has lost a request
  have hprogress : (files' args.remotePath = before ∨
      (ended = true ∧ files' args.remotePath = some source)) →
      Progress args remoteTemp before ⟨upload, files', late.erase req, source, ended⟩ := by
    intro hd
    obtain ⟨error, hu | hu⟩ := h.progress.failed_of_late (List.ne_nil_of_mem hmem)
    · obtain rfl : upload = .removing error := hu
      exact hd
    · obtain rfl : upload = .done (.error error) := hu
      exact hd
  have hknown : ∀ r ∈ late.erase req, OnlyTouches remoteTemp r ∨
      r = .rename remoteTemp args.remotePath :=
    fun r hr => h.late.known r (List.mem_of_mem_erase hr)
  rcases h.late.known req hmem with ht | rfl
  · have hdest : files' args.remotePath = files args.remotePath :=
      execute_frame ht hexec hne.symm
    refine ⟨hprogress ?_, ⟨hknown, fun hren => ?_⟩⟩
    · rw [hdest]
      exact h.progress.delivered
    · -- beside a lost rename only the removal can be lost
      obtain ⟨hended, hwhole, honly⟩ := h.late.whole (List.mem_of_mem_erase hren)
      refine ⟨hended, ?_, fun r hr => honly r (List.mem_of_mem_erase hr)⟩
      rcases honly req hmem with rfl | rfl
      · exact absurd ht id
      · have htemp : files' remoteTemp = none ∨ files' remoteTemp = files remoteTemp :=
          execute_remove_self hexec
        rcases htemp with hgone | hsame
        · exact .inl hgone
        · show files' remoteTemp = none ∨ files' remoteTemp = some source
          rw [hsame]
          exact hwhole
  · obtain ⟨hended, hwhole, honly⟩ := h.late.whole hmem
    rcases execute_rename hexec with ⟨content, hcontent, -, hfiles⟩ | ⟨hfiles, -⟩
    · have hfiles : files' = _ := hfiles
      have hsource : some content = some source := by
        rcases hwhole with hnone | hsome
        · exact absurd (hnone.symm.trans hcontent) (by simp)
        · exact hcontent.symm.trans hsome
      refine ⟨hprogress (.inr ⟨hended, ?_⟩), ⟨hknown, fun _ => ⟨hended, .inl ?_, fun r hr =>
        honly r (List.mem_of_mem_erase hr)⟩⟩⟩
      · rw [hfiles, Function.update_self]
        exact hsource
      · show files' remoteTemp = none
        rw [hfiles, Function.update_of_ne hne, Function.update_self]
    · obtain rfl : files' = files := hfiles
      exact ⟨hprogress h.progress.delivered, ⟨hknown, fun _ => ⟨hended, hwhole, fun r hr =>
        honly r (List.mem_of_mem_erase hr)⟩⟩⟩

/-- Somebody else changes another file. -/
theorem TransferInv.other (h : TransferInv args remoteTemp before st) {path : String}
    {content : Option (List UInt8)} (hok : st.permits args remoteTemp (.other path content)) :
    TransferInv args remoteTemp before (st.next args remoteTemp (.other path content)) := by
  have htemp : Function.update st.files path content remoteTemp = st.files remoteTemp :=
    Function.update_of_ne hok.1.symm _ _
  have hdest : Function.update st.files path content args.remotePath = st.files args.remotePath :=
    Function.update_of_ne hok.2.symm _ _
  refine ⟨?_, ⟨h.late.known, fun hren => ?_⟩⟩
  · have hp := h.progress
    unfold Progress at hp ⊢
    simp only [TransferState.next, htemp, hdest]
    exact hp
  · show st.ended = true ∧ (Function.update st.files path content remoteTemp = none ∨
      Function.update st.files path content remoteTemp = some st.source) ∧ _
    rw [htemp]
    exact h.late.whole hren

/-- **Every step keeps the invariant.** -/
theorem TransferInv.step (h : TransferInv args remoteTemp before st)
    (hne : remoteTemp ≠ args.remotePath) {e : TransferEvent} {st' : TransferState}
    (hs : Moves (TransferState.permits args remoteTemp) (TransferState.next args remoteTemp)
      st e st') : TransferInv args remoteTemp before st' := by
  obtain ⟨hok, rfl⟩ := hs
  cases e with
  | openSource result => exact h.openSource hok
  | readSource result => exact h.readSource hok
  | answer fault => exact h.answer hne hok
  | lose error => exact h.lose hok
  | late req fault => exact h.lateCall hne hok
  | other path content => exact h.other hok

end Transfer

/-! ## 4. The destination -/

/-- **`upload_file` is atomic.** In every state of every run, whatever fails, the destination
    holds what it held before, or all that was read of the source up to its end; and where the
    upload returns `Ok` it holds the latter, and the number returned is its length. -/
theorem upload_file_atomic {args : UploadFileArgs} {rnd : Nat} {files : Files}
    {hist : List (TransferState × TransferEvent)} {st : TransferState}
    (h : TransferRun args (args.remoteTemp rnd) files hist st) :
    (st.files args.remotePath = files args.remotePath ∨
      (st.ended = true ∧ st.files args.remotePath = some st.source)) ∧
    ∀ bytes, st.upload = .done (.ok bytes) →
      st.ended = true ∧ st.files args.remotePath = some st.source ∧ bytes = st.source.length := by
  have hinv : TransferInv args (args.remoteTemp rnd) (files args.remotePath) st :=
    h.invariant (fun s hs => by
        obtain rfl : s = .start files := hs
        exact ⟨⟨rfl, rfl, rfl⟩, .of_nil rfl⟩)
      fun _ _ _ hi hs => hi.step (args.remoteTemp_ne rnd) hs
  refine ⟨hinv.progress.delivered, fun bytes hu => ?_⟩
  have hp := hinv.progress
  rw [Progress, hu] at hp
  exact hp.2

/-- Two bytes are read and written, and the rename is lost and executed after the upload has
    returned. Newest first. -/
def lateRename (args : UploadFileArgs) (rnd : Nat) : List TransferEvent :=
  [.late (.rename (args.remoteTemp rnd) args.remotePath) none,
    .lose ⟨Code.agentOffline, "connection to agent lost"⟩,
    .lose ⟨Code.agentOffline, "connection to agent lost"⟩,
    .answer none, .readSource (.ok []), .answer none, .readSource (.ok [7, 8]), .answer none,
    .openSource (.ok ())]

def smallUpload : UploadFileArgs := ⟨"a", "/b", none⟩

/-- The upload after these events, on a target without files. -/
def lateRenamed : TransferState :=
  (replay (TransferState.next smallUpload (smallUpload.remoteTemp 5)) (.start fun _ => none)
    (lateRename smallUpload 5)).2

theorem upload_file_atomic_late : lateRenamed.files "/b" = some [7, 8] := by
  have hok : Permitted (TransferState.permits smallUpload (smallUpload.remoteTemp 5))
      (TransferState.next smallUpload (smallUpload.remoteTemp 5)) (.start fun _ => none)
      (lateRename smallUpload 5) := by decide
  have hstart : TransferInit (fun _ => none) (.start fun _ => none) := rfl
  have hrun : TransferRun smallUpload (smallUpload.remoteTemp 5) (fun _ => none) _ lateRenamed :=
    Run.of_replay hstart hok
  have hmoved : lateRenamed.files "/b" ≠ none := by decide
  exact ((upload_file_atomic hrun).1.resolve_left hmoved).2

end Relayfs
