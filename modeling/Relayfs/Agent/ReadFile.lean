/-
  File:      Relayfs/Agent/ReadFile.lean
  Subject:   `read_file` (agent/src/files.rs): one read of the target's file, and what it says about
             the end of it.

  The handler makes one call of `File::read`, which may return fewer bytes than there are: it
  promises one at least. `eof` says that the call returned fewer bytes than were asked for.

  * `ReadRun`, `Agent.readFile` -- the handler, for what the operating system does;
  * `Returns` -- what one read may return; `FillsOrEnds` -- a read that is not short;
  * `readFile_answer` -- the bytes that an answer carries, and its `eof`.
-/
import Relayfs.Agent.Files
import Relayfs.Agent.Responses

namespace Relayfs

open Lib

/-! ## 1. The handler -/

/-- The content of a regular file; its length is an `off_t`. -/
structure FileContent where
  bytes : List UInt8
  small : bytes.length < 2 ^ 63

/-- What the operating system does while a file is read: the file it opens, or an error; an error of
    the seek; and the bytes that one read returns, or an error. -/
structure ReadRun where
  opened : Except String FileContent
  seekFails : Option String
  read : Except String Nat

/-- `file.seek(SeekFrom::Start(offset))`: a seek takes offsets below `2 ^ 63` only. -/
def ReadRun.seek (os : ReadRun) (offset : Nat) : Option String :=
  if offset = 0 then none
  else if 2 ^ 63 ≤ offset then some "Invalid argument (os error 22)"
  else os.seekFails

/-- `read_file`; `unreadable` is the error of `from_value`. -/
def Agent.readFile (unreadable : String) (params : Json) (os : ReadRun) : Except String Json :=
  match ReadFileParams.ofJson params with
  | none => .error unreadable
  | some p =>
      match os.opened with
      | .error e => .error ("open " ++ p.path ++ ": " ++ e)
      | .ok content =>
          let offset := p.offset.getD 0
          let limit := p.limit.getD (1024 * 1024)
          if maxDirectFileBytes < limit then
            .error ("read limit exceeds the " ++ toString maxDirectFileBytes ++ " byte maximum")
          else match os.seek offset with
            | some e => .error e
            | none =>
                match os.read with
                | .error e => .error e
                | .ok n =>
                    let buf := (content.bytes.drop offset).take n
                    .ok (ReadFileResult.toJson ⟨Base64.encode buf, decide (n < limit)⟩)

/-- The answer to a request of the bridge. -/
def readAnswer (unreadable : String) (req : BridgeRequest) (os : ReadRun) : Except RpcError Json :=
  (Agent.readFile unreadable req.params os).mapError fun text => ⟨Code.internalError, text⟩

/-! ## 2. One read -/

/-- **What `File::read` may return** into a buffer of `limit` bytes: no more than fit and there are,
    and one at least while there are any. -/
structure Returns (content : List UInt8) (offset limit n : Nat) : Prop where
  fits : n ≤ limit
  there : n ≤ content.length - offset
  some : offset < content.length → 0 < limit → 0 < n

/-- The read fills its buffer, or comes to the end of the file. -/
def FillsOrEnds (content : List UInt8) (offset limit n : Nat) : Prop :=
  n = limit ∨ content.length ≤ offset + n

/-- All that fits and is there. -/
def AllThere (content : List UInt8) (offset limit n : Nat) : Prop :=
  n = min limit (content.length - offset)

theorem AllThere.returns {content : List UInt8} {offset limit n : Nat}
    (h : AllThere content offset limit n) : Returns content offset limit n := by
  have h : n = min limit (content.length - offset) := h
  exact ⟨by omega, by omega, by omega⟩

theorem AllThere.fillsOrEnds {content : List UInt8} {offset limit n : Nat}
    (h : AllThere content offset limit n) : FillsOrEnds content offset limit n := by
  have h : n = min limit (content.length - offset) := h
  unfold FillsOrEnds
  omega

/-- The bytes a read returns. -/
theorem Returns.length {content : List UInt8} {offset limit n : Nat}
    (h : Returns content offset limit n) : ((content.drop offset).take n).length = n := by
  have hthere := h.there
  rw [List.length_take, List.length_drop]
  omega

/-- The agent reads the parameters as the bridge sends them. -/
theorem readFile_params {path : String} {offset limit : Nat} (hoffset : offset < 2 ^ 64)
    (hlimit : limit < 2 ^ 64) :
    ReadFileParams.ofJson (BridgeRequest.readFile path (some offset) (some limit)).params =
      some ⟨path, some offset, some limit⟩ := by
  have hfield : ∀ m, m < 2 ^ 64 →
      Json.optional Json.asUnsigned (some (.nat m)) = some (some m) := by
    intro m hm
    show (Json.asUnsigned (.nat m)).map some = some (some m)
    rw [Json.asUnsigned, Json.asU64_nat, Option.filter_some, if_pos (decide_eq_true hm)]
    rfl
  show (do
    let offset ← Json.optional Json.asUnsigned (some (.nat offset))
    let limit ← Json.optional Json.asUnsigned (some (.nat limit))
    return (⟨path, offset, limit⟩ : ReadFileParams)) = _
  rw [hfield offset hoffset, hfield limit hlimit]
  rfl

section Answers

variable {unreadable path : String} {offset limit n : Nat} {content : FileContent}

/-- The handler on a file that opens and can be read. -/
theorem readFile_opened (hoffset : offset < 2 ^ 64) (hlimit : limit ≤ maxDirectFileBytes) :
    Agent.readFile unreadable (BridgeRequest.readFile path (some offset) (some limit)).params
        ⟨.ok content, none, .ok n⟩ =
      if 2 ^ 63 ≤ offset then .error "Invalid argument (os error 22)"
      else .ok (ReadFileResult.toJson
        ⟨Base64.encode ((content.bytes.drop offset).take n), decide (n < limit)⟩) := by
  have hmax : maxDirectFileBytes = 8 * 1024 * 1024 := rfl
  rw [Agent.readFile, readFile_params hoffset (by omega)]
  dsimp only [Option.getD_some]
  rw [if_neg (Nat.not_lt.mpr hlimit), ReadRun.seek]
  by_cases hfar : 2 ^ 63 ≤ offset
  · rw [if_pos hfar, if_pos hfar, if_neg (by omega)]
  · rw [if_neg hfar, if_neg hfar]
    by_cases hzero : offset = 0
    · rw [if_pos hzero]
    · rw [if_neg hzero]

/-- **An answer** carries the bytes of the read, and says `eof` where they are fewer than the
    limit. -/
theorem readFile_answer (hoffset : offset < 2 ^ 63) (hlimit : limit ≤ maxDirectFileBytes) :
    readAnswer unreadable (.readFile path (some offset) (some limit)) ⟨.ok content, none, .ok n⟩ =
      .ok (ReadFileResult.toJson
        ⟨Base64.encode ((content.bytes.drop offset).take n), decide (n < limit)⟩) := by
  rw [readAnswer, readFile_opened (by omega) hlimit, if_neg (Nat.not_le.mpr hoffset)]
  rfl

/-- **The end of the file, as an answer tells it**: where it says `eof`, no byte of the file comes
    after the bytes it carries. -/
def EofHonest (content : List UInt8) (offset : Nat) (answer : Except String Json) : Prop :=
  ∀ r data, answer = .ok (ReadFileResult.toJson r) → Base64.decode r.data = some data →
    r.eof = true → content.length ≤ offset + data.length

/-- **When `eof` is honest**: exactly when the read fills its buffer or comes to the end. -/
theorem eofHonest_iff (hoffset : offset < 2 ^ 64) (hlimit : limit ≤ maxDirectFileBytes)
    (hn : Returns content.bytes offset limit n) :
    EofHonest content.bytes offset (Agent.readFile unreadable
      (BridgeRequest.readFile path (some offset) (some limit)).params ⟨.ok content, none, .ok n⟩) ↔
      FillsOrEnds content.bytes offset limit n := by
  have hsmall := content.small
  have hfits := hn.fits
  rw [readFile_opened hoffset hlimit]
  by_cases hfar : 2 ^ 63 ≤ offset
  · -- no read, and no file so long
    rw [if_pos hfar]
    refine iff_of_true (fun r data h => ?_) (.inr (by omega))
    cases h
  · rw [if_neg hfar]
    constructor
    · intro h
      have hdata := Base64.decode_encode ((content.bytes.drop offset).take n)
      have hend := h _ _ rfl hdata
      rw [hn.length, decide_eq_true_eq] at hend
      unfold FillsOrEnds
      omega
    · intro h r data heq hdecode heof
      have hr : r = ⟨Base64.encode ((content.bytes.drop offset).take n), decide (n < limit)⟩ := by
        have hof := congrArg ReadFileResult.ofJson (Except.ok.inj heq)
        rw [ReadFileResult.ofJson_toJson, ReadFileResult.ofJson_toJson] at hof
        exact (Option.some.inj hof).symm
      subst hr
      have hlen : data.length = n := by
        rw [Base64.decode_encode] at hdecode
        rw [← Option.some.inj hdecode]
        exact hn.length
      have hshort : n < limit := of_decide_eq_true heof
      rcases h with hfull | hend
      · omega
      · omega

end Answers

end Relayfs
