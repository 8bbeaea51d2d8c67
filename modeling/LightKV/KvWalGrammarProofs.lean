import LightKV.KvWalProofs

/-! # The files a recovery can come from

    The log format as a grammar (`LogFile`): whole frames, and behind them either
    a tail that starts no frame, or the front of one more frame whose missing
    bytes are zeros.  The grammar speaks of the writer's frames alone, and has
    neither a stream nor a checksum in it.

    `Recover` returns a list of records for exactly the files that the grammar
    relates to it (`recover_iff_logFile`): it never invents a record, and skips
    none that stands there. -/

namespace KvWalGrammar

open KvBytes KvDirectory KvWal

/-- A tail that starts no frame: it is shorter than a header, or no frame stands
    at its front, not even with zeros for what it lacks. -/
def NoFrame (t : Bytes) : Prop :=
  ∀ r q, RecordFits r → encodeRecord r <+: t ++ List.replicate q 0 → t.length < 13

/-- The bytes of a log and the records they stand for. -/
inductive LogFile : Bytes → List ParsedLogRecord → Prop where
  | tail {t : Bytes} : NoFrame t → LogFile t []
  | frame {r : ParsedLogRecord} {rest : Bytes} {R : List ParsedLogRecord} :
      RecordFits r → LogFile rest R → LogFile (encodeRecord r ++ rest) (r :: R)
  | torn {r : ParsedLogRecord} {p : Bytes} {q : Nat} :
      RecordFits r → 13 ≤ p.length → 0 < q → p ++ List.replicate q 0 = encodeRecord r →
      LogFile p [r]

variable {t p : Bytes} {r : ParsedLogRecord} {R : List ParsedLogRecord}

/-! ## Zeros behind a file -/

/-- Zeros behind a body are more of the padding. -/
theorem padBody_zeros (body : Bytes) (q n : Nat) :
    ∃ m, padBody (body ++ List.replicate q 0) n = padBody body n ++ List.replicate m 0 := by
  refine ⟨q + (n - (body.length + q)) - (n - body.length), ?_⟩
  rw [padBody, padBody, List.append_assoc, List.append_assoc, List.replicate_append_replicate,
    List.replicate_append_replicate, List.length_append, List.length_replicate]
  congr 2
  omega

/-- The first frame of a file is read the same with zeros behind the file. -/
theorem frameRecord_zeros (h : 13 ≤ t.length) (q : Nat) :
    frameRecord (t ++ List.replicate q 0) = frameRecord t := by
  have htake : (t ++ List.replicate q 0).take 13 = t.take 13 := List.take_append_of_le_length h
  have hdrop : (t ++ List.replicate q 0).drop 13 = t.drop 13 ++ List.replicate q 0 :=
    List.drop_append_of_le_length h
  obtain ⟨m, hm⟩ := padBody_zeros (t.drop 13) q
    ((parseHeader (t.take 13)).keyLen + (parseHeader (t.take 13)).valueLen)
  have hlen := length_padBody (t.drop 13)
    ((parseHeader (t.take 13)).keyLen + (parseHeader (t.take 13)).valueLen)
  simp only [frameRecord, htake, hdrop, hm]
  -- key and value end before the new zeros do
  rw [List.take_append_of_le_length (by omega), List.drop_append_of_le_length (by omega),
    List.take_append_of_le_length (by rw [List.length_drop]; omega)]

theorem rejected_zeros (h : 13 ≤ t.length) (q : Nat) :
    Rejected (t ++ List.replicate q 0) ↔ Rejected t := by
  have htake : (t ++ List.replicate q 0).take 13 = t.take 13 := List.take_append_of_le_length h
  have hlong : ¬ t.length < 13 := Nat.not_lt.mpr h
  have hlong' : ¬ (t ++ List.replicate q 0).length < 13 := by
    rw [List.length_append]
    omega
  rw [Rejected, Rejected, or_iff_right hlong, or_iff_right hlong', htake, frameRecord_zeros h]

/-! ## Reading agrees with the grammar -/

theorem not_rejected_encodeRecord (h : RecordFits r) (rest : Bytes) :
    ¬ Rejected (encodeRecord r ++ rest) := by
  intro hrej
  have hnil := recoverFile_eq_nil.mpr hrej
  rw [recoverFile_frame h] at hnil
  cases hnil

/-- The record of a file that starts with a frame. -/
theorem frameRecord_encodeRecord (h : RecordFits r) (rest : Bytes) :
    frameRecord (encodeRecord r ++ rest) = r := by
  have hstep := recoverFile_frame h rest
  rw [recoverFile_step, if_neg (not_rejected_encodeRecord h rest)] at hstep
  exact (List.cons.inj hstep).1

/-- **A checksum decides whether a frame stands there**, completed by zeros. -/
theorem rejected_iff_noFrame : Rejected t ↔ NoFrame t := by
  constructor
  · intro hrej r q hfits hpre
    by_contra hlong
    obtain ⟨rest, hrest⟩ := hpre
    have hzeros := (rejected_zeros (Nat.not_lt.mp hlong) q).mpr hrej
    rw [← hrest] at hzeros
    exact not_rejected_encodeRecord hfits rest hzeros
  · intro hno
    by_contra hrej
    obtain ⟨hfits, htake, -⟩ := frame_of_not_rejected hrej
    have hpre := List.take_prefix (encodeRecord (frameRecord t)).length
      (padBody t (encodeRecord (frameRecord t)).length)
    rw [htake] at hpre
    exact hrej (Or.inl (hno _ _ hfits hpre))

/-- A torn frame whose missing bytes are zeros is read as its record, and ends
    the file. -/
theorem recoverFile_torn {q : Nat} (hfits : RecordFits r) (hlong : 13 ≤ p.length) (hq : 0 < q)
    (hp : p ++ List.replicate q 0 = encodeRecord r) : recoverFile p = [r] := by
  have hwhole : p ++ List.replicate q 0 = encodeRecord r ++ [] := by rw [hp, List.append_nil]
  have hrej : ¬ Rejected p := by
    rw [← rejected_zeros hlong q, hwhole]
    exact not_rejected_encodeRecord hfits []
  have hrec : frameRecord p = r := by
    rw [← frameRecord_zeros hlong q, hwhole, frameRecord_encodeRecord hfits]
  obtain ⟨-, -, hlen⟩ := frame_of_not_rejected hrej
  have hcut := congrArg List.length hp
  rw [List.length_append, List.length_replicate] at hcut
  rw [hrec] at hlen
  rw [recoverFile_step, if_neg hrej, hrec]
  simp only [← hlen]
  rw [if_neg (by omega)]

theorem recoverFile_of_logFile {file : Bytes} (h : LogFile file R) : recoverFile file = R := by
  induction h with
  | tail hno => exact recoverFile_eq_nil.mpr (rejected_iff_noFrame.mpr hno)
  | frame hfits _ ih => rw [recoverFile_frame hfits, ih]
  | torn hfits hlong hq hp => exact recoverFile_torn hfits hlong hq hp

/-- Frames in front of a log file. -/
theorem logFile_encodeAll {S : List ParsedLogRecord} (h : ∀ r ∈ R, RecordFits r) {rest : Bytes}
    (hrest : LogFile rest S) : LogFile (encodeAll R ++ rest) (R ++ S) := by
  induction R with
  | nil => exact hrest
  | cons r R ih =>
      have hcons : encodeAll (r :: R) ++ rest = encodeRecord r ++ (encodeAll R ++ rest) := by
        simp [encodeAll]
      rw [hcons]
      exact LogFile.frame (h r List.mem_cons_self) (ih (fun x hx => h x (List.mem_cons_of_mem _ hx)))

/-- Every file is a log file of what is read from it. -/
theorem logFile_recoverFile (file : Bytes) : LogFile file (recoverFile file) := by
  obtain ⟨hfits, hcase⟩ := recoverFile_cases (rfl : recoverFile file = _)
  rcases hcase with ⟨rest, hfile, hrej⟩ | ⟨R', r, p, q, heq, hfile, hq, hp⟩
  · have hlog := logFile_encodeAll hfits (LogFile.tail (rejected_iff_noFrame.mp hrej))
    rwa [List.append_nil, ← hfile] at hlog
  · have hR' : ∀ x ∈ R', RecordFits x := fun x hx => hfits x (by simp [heq, hx])
    have hr : RecordFits r := hfits r (by simp [heq])
    -- something is read from the torn frame, so its header is there
    have hread : recoverFile p = [r] := by
      have hsplit : recoverFile (encodeAll R' ++ p) = R' ++ [r] := by rw [← hfile, heq]
      rw [recoverFile_encodeAll hR'] at hsplit
      exact List.append_cancel_left hsplit
    have hlong : 13 ≤ p.length := by
      by_contra hshort
      rw [recoverFile_eq_nil.mpr (Or.inl (Nat.not_le.mp hshort))] at hread
      cases hread
    have hlog := logFile_encodeAll hR' (LogFile.torn hr hlong hq hp)
    rwa [← hfile, ← heq] at hlog

/-- **What `Recover` reads.**  It returns these records exactly when the file at
    the log's path, nothing if there is none, is a log file of them. -/
theorem recover_iff_logFile (w : WalLogger) (dir : Directory) (R : List ParsedLogRecord) :
    w.recover dir = R ↔ LogFile (held dir w.path) R := by
  rw [recover_eq_held]
  constructor
  · intro h
    rw [← h]
    exact logFile_recoverFile _
  · exact recoverFile_of_logFile

end KvWalGrammar
