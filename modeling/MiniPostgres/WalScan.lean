import MiniPostgres.WalCodec
/-!
# WalScan — reopening the log

The scan of `WalManager.open` over a stream of records and whatever follows it.  Over a stream the scan reads every record
(`Stream.scan`); a cut inside a record is a torn tail (`scanRest_torn`), and a changed byte in a record that is followed by
another one is corruption (`scanRest_changed`).
-/
namespace MiniPostgres

/-! ## The scan without its fuel -/

theorem headerSize_le_total {header : ByteString} {total : Nat} (h : recordLengthFromHeader header = .ok total) :
    headerSize ≤ total := by
  unfold recordLengthFromHeader at h
  split at h
  · exact absurd h raise_ne_ok
  · split at h
    · exact absurd h raise_ne_ok
    · split at h
      · exact absurd h raise_ne_ok
      · rename_i hc
        cases h
        omega

theorem scanLoop_fuel : ∀ (fuel fuel' cursor : Nat) (rest : ByteString), rest.length < fuel → rest.length < fuel' →
    scanLoop fuel cursor rest = scanLoop fuel' cursor rest
  | 0, _, _, _, h, _ => absurd h (Nat.not_lt_zero _)
  | _ + 1, 0, _, _, _, h => absurd h (Nat.not_lt_zero _)
  | fuel + 1, fuel' + 1, cursor, rest, h, h' => by
    simp only [scanLoop]
    split
    · rfl
    · split
      · rfl
      · rename_i total htotal
        split
        · rfl
        · have hle := headerSize_le_total htotal
          have hsize : headerSize = 36 := rfl
          have hdrop : (rest.drop total).length < fuel ∧ (rest.drop total).length < fuel' := by
            rw [List.length_drop]; omega
          rw [scanLoop_fuel fuel fuel' (cursor + total) (rest.drop total) hdrop.1 hdrop.2]

def scanRest (cursor : Nat) (rest : ByteString) : Result (List DecodedWalRecord × Nat) :=
  scanLoop (rest.length + 1) cursor rest

theorem scanRest_eq (cursor : Nat) (rest : ByteString) : scanRest cursor rest =
    if rest.length < headerSize then .ok ([], cursor)
    else
      match recordLengthFromHeader (rest.take headerSize) with
      | .error e  => if rest.length = headerSize then .ok ([], cursor) else .error e
      | .ok total =>
        if rest.length < total then .ok ([], cursor)
        else
          match decodeRecord (rest.take total) with
          | .error e  => if rest.length = total then .ok ([], cursor) else .error e
          | .ok entry =>
            if entry.lsn ≠ cursor then raise .corruptWal "WAL record LSN does not match file position"
            else scanRest (cursor + total) (rest.drop total) >>= fun r => .ok (entry :: r.1, r.2) := by
  rw [scanRest, scanLoop]
  split
  · rfl
  · cases htotal : recordLengthFromHeader (rest.take headerSize) with
    | error e => rfl
    | ok total =>
      have hle := headerSize_le_total htotal
      have hsize : headerSize = 36 := rfl
      simp only
      split
      · rfl
      · rw [scanLoop_fuel rest.length ((rest.drop total).length + 1) _ _ (by rw [List.length_drop]; omega) (by omega)]
        rfl

/-! ## Over a stream of records -/

section Records

variable {pos xid : Nat} {record : RawRecord} {body bytes : ByteString}

theorem scanRest_record (e : Encoded pos xid record body bytes) (tail : ByteString) :
    scanRest pos (bytes ++ tail) =
      scanRest (pos + bytes.length) tail >>= fun r => .ok (⟨pos, pos + bytes.length, xid, record⟩ :: r.1, r.2) := by
  have hlen := e.length
  have hheader : (bytes ++ tail).take headerSize = bytes.take headerSize := List.take_append_of_le_length (by omega)
  rw [scanRest_eq, if_neg (by rw [List.length_append]; omega), e.length_from_header hheader]
  simp only [List.length_append]
  rw [if_neg (by omega), List.take_left, e.decode]
  simp only [ne_eq, not_true_eq_false, if_false, List.drop_left]

/-- **A cut inside a record is a torn tail.** -/
theorem scanRest_torn (e : Encoded pos xid record body bytes) {k : Nat} (hk : k < bytes.length) :
    scanRest pos (bytes.take k) = .ok ([], pos) := by
  have hk' : (bytes.take k).length = k := by rw [List.length_take]; omega
  rw [scanRest_eq]
  split
  · rfl
  · rename_i hlen
    have hheader : (bytes.take k).take headerSize = bytes.take headerSize := by
      rw [List.take_take, Nat.min_eq_left (by omega)]
    rw [e.length_from_header hheader]
    simp only
    rw [if_pos (by omega)]

/-- **A changed byte in a record that others follow is corruption.** -/
theorem scanRest_changed (e : Encoded pos xid record body bytes) {j : Nat} {b : UInt8} (hj : j < bytes.length)
    (hb : bytes[j]? ≠ some b) {tail : ByteString} (ht : tail ≠ []) :
    ∃ m, scanRest pos (bytes.set j b ++ tail) = .error ⟨.corruptWal, m⟩ := by
  have hlen := e.length
  have htail : 0 < tail.length := List.length_pos_iff.2 ht
  have hset : (bytes.set j b).length = bytes.length := List.length_set
  have hheader : (bytes.set j b ++ tail).take headerSize = (bytes.set j b).take headerSize :=
    List.take_append_of_le_length (by omega)
  rw [scanRest_eq, if_neg (by rw [List.length_append]; omega), hheader]
  rcases e.changed hj hb with ⟨m, hm⟩ | ⟨hok, m, hm⟩
  · rw [hm]
    simp only [List.length_append]
    rw [if_neg (by omega)]
    exact ⟨m, rfl⟩
  · rw [hok]
    simp only [List.length_append]
    rw [if_neg (by omega), List.take_left' hset, hm]
    simp only
    rw [if_neg (by omega)]
    exact ⟨m, rfl⟩

end Records

/-- The bytes are the records, one after another from `pos`. -/
inductive Stream : Nat → List DecodedWalRecord → ByteString → Prop
  | nil (pos : Nat) : Stream pos [] []
  | cons {pos xid : Nat} {record : RawRecord} {body bytes rest : ByteString} {entries : List DecodedWalRecord}
      (e : Encoded pos xid record body bytes) (h : Stream (pos + bytes.length) entries rest) :
      Stream pos (⟨pos, pos + bytes.length, xid, record⟩ :: entries) (bytes ++ rest)

namespace Stream

theorem concat {pos xid : Nat} {record : RawRecord} {body bytes file : ByteString} {entries : List DecodedWalRecord}
    (h : Stream pos entries file) (e : Encoded (pos + file.length) xid record body bytes) :
    Stream pos (entries ++ [⟨pos + file.length, pos + file.length + bytes.length, xid, record⟩]) (file ++ bytes) := by
  induction h with
  | nil pos =>
    have := @Stream.cons pos _ _ _ _ _ _ e (.nil _)
    simpa using this
  | @cons pos xid' record' body' bytes' rest entries e' h ih =>
    rw [List.length_append, ← Nat.add_assoc] at e ⊢
    have := Stream.cons e' (ih e)
    simpa [List.append_assoc] using this

/-- **The scan reads every record of a stream**, and goes on behind it. -/
theorem scan {pos : Nat} {entries : List DecodedWalRecord} {file : ByteString} (h : Stream pos entries file)
    (tail : ByteString) :
    scanRest pos (file ++ tail) = scanRest (pos + file.length) tail >>= fun r => .ok (entries ++ r.1, r.2) := by
  induction h with
  | nil pos =>
    simp only [List.nil_append, List.length_nil, Nat.add_zero]
    cases scanRest pos tail <;> rfl
  | cons e h ih =>
    rw [List.append_assoc, scanRest_record e, ih, List.length_append, Nat.add_assoc]
    cases scanRest _ tail <;> rfl

theorem ends {pos : Nat} {entries : List DecodedWalRecord} {file : ByteString} (h : Stream pos entries file) :
    ∀ e ∈ entries, pos ≤ e.lsn ∧ e.lsn < e.endLsn := by
  induction h with
  | nil pos => simp
  | @cons pos xid record body bytes rest entries e h ih =>
    have hlen := e.length
    have hsize : headerSize = 36 := rfl
    intro f hf
    rcases List.mem_cons.1 hf with rfl | hf
    · exact ⟨Nat.le_refl _, by simp only; omega⟩
    · have := ih f hf
      omega

/-- The records that lie wholly within the first `n` bytes, and where the last of them ends. -/
def keptTo (n : Nat) (entries : List DecodedWalRecord) : List DecodedWalRecord := entries.filter (fun e => e.endLsn ≤ n)

def stopOf (pos : Nat) (entries : List DecodedWalRecord) : Nat := (entries.getLast?.map DecodedWalRecord.endLsn).getD pos

/-- **The scan of a cut stream reads exactly the records that are complete.** -/
theorem scan_cut {pos : Nat} {entries : List DecodedWalRecord} {file : ByteString} (h : Stream pos entries file) :
    ∀ n, scanRest pos (file.take n) = .ok (keptTo (pos + n) entries, stopOf pos (keptTo (pos + n) entries)) := by
  induction h with
  | nil pos =>
    intro n
    rw [List.take_nil, scanRest_eq]
    rfl
  | @cons pos xid record body bytes rest entries e h ih =>
    intro n
    have hlen := e.length
    have hsize : headerSize = 36 := rfl
    by_cases hn : n < bytes.length
    · have hnone : keptTo (pos + n) (⟨pos, pos + bytes.length, xid, record⟩ :: entries) = [] := by
        unfold keptTo
        rw [List.filter_eq_nil_iff]
        intro f hf
        rcases List.mem_cons.1 hf with rfl | hf
        · simp only [decide_eq_true_eq]; omega
        · have := h.ends f hf
          simp only [decide_eq_true_eq]; omega
      rw [List.take_append_of_le_length (by omega), scanRest_torn e hn, hnone]
      rfl
    · have hkept : keptTo (pos + n) (⟨pos, pos + bytes.length, xid, record⟩ :: entries) =
          ⟨pos, pos + bytes.length, xid, record⟩ :: keptTo (pos + n) entries := by
        unfold keptTo
        rw [List.filter_cons, if_pos (by simp only [decide_eq_true_eq]; omega)]
      have hpos : pos + bytes.length + (n - bytes.length) = pos + n := by omega
      rw [List.take_append, List.take_of_length_le (by omega), scanRest_record e, ih, hkept, hpos]
      refine congrArg Except.ok (Prod.ext rfl ?_)
      unfold stopOf
      cases keptTo (pos + n) entries with
      | nil => rfl
      | cons f fs => rfl

theorem encoded {pos : Nat} {entries : List DecodedWalRecord} {file : ByteString} (h : Stream pos entries file) :
    ∀ e ∈ entries, encodeRecord e.lsn e.xid e.record = .ok (slice file (e.lsn - pos) (e.endLsn - e.lsn)) := by
  induction h with
  | nil pos => simp
  | @cons pos xid record body bytes rest entries e h ih =>
    intro f hf
    rcases List.mem_cons.1 hf with rfl | hf
    · simp only [Nat.sub_self, Nat.add_sub_cancel_left]
      rw [slice_head rfl]
      exact e.encodes
    · have hle := (h.ends f hf).1
      rw [ih f hf, slice_skip (by omega), Nat.sub_sub]

theorem stop {pos : Nat} {entries : List DecodedWalRecord} {file : ByteString} (h : Stream pos entries file) :
    stopOf pos entries = pos + file.length := by
  induction h with
  | nil pos => rfl
  | @cons pos xid record body bytes rest entries e h ih =>
    have hstop : stopOf pos (⟨pos, pos + bytes.length, xid, record⟩ :: entries) = stopOf (pos + bytes.length) entries := by
      unfold stopOf
      cases entries <;> rfl
    rw [hstop, ih, List.length_append, Nat.add_assoc]

/-- **A changed byte in any record but the last is corruption.** -/
theorem changed {pos : Nat} {entries : List DecodedWalRecord} {file : ByteString} (h : Stream pos entries file) :
    ∀ e ∈ entries.dropLast, ∀ (j : Nat) (b : UInt8), e.lsn ≤ pos + j → pos + j < e.endLsn → file[j]? ≠ some b →
      ∃ m, scanRest pos (file.set j b) = .error ⟨.corruptWal, m⟩ := by
  induction h with
  | nil pos => simp
  | @cons pos xid record body bytes rest entries e h ih =>
    intro f hf j b hlo hhi hb
    cases h with
    | nil => simp at hf
    | @cons _ xid' record' body' bytes' rest' entries' e' h' =>
      have hlen' := e'.length
      have hsize : headerSize = 36 := rfl
      rw [List.dropLast_cons_of_ne_nil (List.cons_ne_nil _ _)] at hf
      by_cases hj : j < bytes.length
      · rw [List.set_append_left _ _ hj]
        refine scanRest_changed e hj ?_ (List.ne_nil_of_length_pos ?_)
        · rwa [List.getElem?_append_left hj] at hb
        · rw [List.length_append]; omega
      · rw [List.set_append_right _ _ (by omega), scanRest_record e]
        rcases List.mem_cons.1 hf with rfl | hf
        · simp only at hhi; omega
        · rw [List.getElem?_append_right (by omega)] at hb
          obtain ⟨m, hm⟩ := ih f hf (j - bytes.length) b (by omega) (by omega) hb
          exact ⟨m, by rw [hm]; rfl⟩

end Stream
end MiniPostgres
