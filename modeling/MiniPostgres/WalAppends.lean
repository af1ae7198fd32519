import MiniPostgres.WalScan
/-!
# WalAppends — runs of `append` and the open after them

A run of `WalManager.append` calls keeps a stream of records up to `end_lsn` (`Logged`); behind it stand the bytes that failed
appends have left.  `WalManager.open` gives the records back from any cut of the stream, and after failed appends exactly when
the bytes left behind the stream are a torn tail (`TornTail`).
-/
namespace MiniPostgres
namespace WalManager

/-- Up to `end_lsn` the file is the stream of the entries. -/
structure Logged (w : WalManager) : Prop where
  stream : Stream 0 w.entries (w.file.take w.endLsn)
  within : w.endLsn ≤ w.file.length

theorem logged_new : Logged new := ⟨.nil 0, Nat.le_refl _⟩

theorem take_pwrite {file : ByteString} {offset : Nat} (data : ByteString) (h : offset ≤ file.length) :
    (pwrite file offset data).take offset = file.take offset := by
  unfold pwrite
  rw [List.append_assoc, List.take_left' (by rw [List.length_take]; omega)]

theorem take_pwrite_end {file : ByteString} {offset : Nat} (data : ByteString) (h : offset ≤ file.length) :
    (pwrite file offset data).take (offset + data.length) = file.take offset ++ data := by
  unfold pwrite
  rw [List.take_left' (by rw [List.length_append, List.length_take]; omega)]

theorem length_pwrite {file : ByteString} {offset : Nat} (data : ByteString) (h : offset ≤ file.length) :
    offset + data.length ≤ (pwrite file offset data).length := by
  unfold pwrite
  simp only [List.length_append, List.length_take]
  omega

/-- What an `append` can do: it raises and has at most written behind the stream, or it returns with the whole record in it. -/
theorem append_cases (w : WalManager) (xid : Nat) (record : RawRecord) (fails : Option Nat) :
    ((∃ e, (w.append xid record fails).2 = .error e) ∧
      ((w.append xid record fails).1 = w ∨
        ∃ data, (w.append xid record fails).1 = { w with file := pwrite w.file w.endLsn data })) ∨
    ∃ body bytes, Encoded w.endLsn xid record body bytes ∧ w.append xid record fails =
      ({ w with
          file    := pwrite w.file w.endLsn bytes
          entries := w.entries ++ [⟨w.endLsn, w.endLsn + bytes.length, xid, record⟩]
          endLsn  := w.endLsn + bytes.length }, .ok w.endLsn) := by
  unfold append
  cases henc : encodeRecord w.endLsn xid record with
  | error e => exact .inl ⟨⟨e, rfl⟩, .inl rfl⟩
  | ok encoded =>
    obtain ⟨body, e⟩ := encodeRecord_eq_ok henc
    cases fails with
    | some n => exact .inl ⟨⟨_, rfl⟩, .inr ⟨_, rfl⟩⟩
    | none =>
      refine .inr ⟨body, encoded, e, ?_⟩
      simp only [e.decode]

/-- **Every append keeps the stream**, and the entry of an append that returns is its record. -/
theorem Logged.append {w : WalManager} (h : Logged w) (xid : Nat) (record : RawRecord) (fails : Option Nat) :
    Logged (w.append xid record fails).1 ∧
      (w.append xid record fails).1.entries.map (fun e => (e.xid, e.record)) =
        w.entries.map (fun e => (e.xid, e.record)) ++
          (match (w.append xid record fails).2 with | .ok _ => [(xid, record)] | .error _ => []) := by
  rcases append_cases w xid record fails with ⟨⟨e, he⟩, hw | ⟨data, hw⟩⟩ | ⟨body, bytes, e, ha⟩
  · rw [hw, he, List.append_nil]
    exact ⟨h, rfl⟩
  · rw [hw, he, List.append_nil]
    refine ⟨⟨?_, Nat.le_trans (Nat.le_add_right _ _) (length_pwrite data h.within)⟩, rfl⟩
    simp only [take_pwrite data h.within]
    exact h.stream
  · rw [ha]
    have hlen : (w.file.take w.endLsn).length = w.endLsn := List.length_take_of_le h.within
    have hstream := @Stream.concat _ xid record body bytes _ _ h.stream
    rw [hlen, Nat.zero_add] at hstream
    refine ⟨⟨?_, length_pwrite bytes h.within⟩, by simp⟩
    simp only [take_pwrite_end bytes h.within]
    exact hstream e

/-! ## Cuts of a stream -/

/-- Records appended one after another, every append returning. -/
def appendAll : WalManager → List (Nat × RawRecord) → Result WalManager
  | w, []                        => .ok w
  | w, (xid, record) :: records =>
    match w.append xid record none with
    | (_, .error e) => .error e
    | (w', .ok _)   => appendAll w' records

theorem append_whole {w : WalManager} (hw : w.file.length = w.endLsn) {xid : Nat} {record : RawRecord} {w' : WalManager}
    {lsn : Nat} (ha : w.append xid record none = (w', .ok lsn)) : w'.file.length = w'.endLsn := by
  rcases append_cases w xid record none with ⟨⟨e, he⟩, -⟩ | ⟨body, bytes, -, heq⟩
  · rw [ha] at he
    cases he
  · cases ha.symm.trans heq
    simp only [pwrite, List.length_append, List.length_take, List.length_drop]
    omega

theorem Logged.appendAll : ∀ {records : List (Nat × RawRecord)} {w w' : WalManager}, Logged w → w.file.length = w.endLsn →
    appendAll w records = .ok w' →
      Logged w' ∧ w'.file.length = w'.endLsn ∧
        w'.entries.map (fun e => (e.xid, e.record)) = w.entries.map (fun e => (e.xid, e.record)) ++ records
  | [], w, w', h, hw, ha => by
    cases ha
    exact ⟨h, hw, (List.append_nil _).symm⟩
  | (xid, record) :: records, w, w', h, hw, ha => by
    obtain ⟨hlog, hentries⟩ := h.append xid record none
    unfold WalManager.appendAll at ha
    split at ha
    · cases ha
    · rename_i w₁ lsn heq
      have hw₁ := append_whole hw heq
      rw [heq] at hlog hentries
      obtain ⟨hlog', hw', hentries'⟩ := Logged.appendAll hlog hw₁ ha
      refine ⟨hlog', hw', ?_⟩
      rw [hentries', hentries, List.append_assoc]
      rfl

theorem openFile_eq (file : ByteString) :
    openFile file = scanRest 0 file >>= fun r => .ok ⟨file.take r.2, r.1, r.2, r.2⟩ := rfl

theorem stopOf_keptTo (n : Nat) (entries : List DecodedWalRecord) : Stream.stopOf 0 (Stream.keptTo n entries) ≤ n := by
  unfold Stream.stopOf
  cases hl : (Stream.keptTo n entries).getLast? with
  | none => exact Nat.zero_le n
  | some e => simpa using (List.mem_filter.1 (List.mem_of_getLast? hl)).2

/-- **Torn-tail repair is exact.**  The file of appended records is the stream of their encodings; opening its first `n` bytes
gives the records that lie wholly within them and cuts the file behind the last one; a changed byte in any record but the last
raises. -/
theorem open_cut_exact {records : List (Nat × RawRecord)} {w : WalManager} (h : appendAll new records = .ok w) :
    (w.entries.map (fun e => (e.xid, e.record)) = records ∧ Stream 0 w.entries w.file ∧
      ∀ e ∈ w.entries, encodeRecord e.lsn e.xid e.record = .ok ((w.file.drop e.lsn).take (e.endLsn - e.lsn))) ∧
    (∀ n, ∃ stop, stop = ((w.entries.filter (fun e => e.endLsn ≤ n)).getLast?.map DecodedWalRecord.endLsn).getD 0 ∧
      openFile (w.file.take n) = .ok ⟨w.file.take stop, w.entries.filter (fun e => e.endLsn ≤ n), stop, stop⟩) ∧
    (∀ e ∈ w.entries.dropLast, ∀ (j : Nat) (b : UInt8), e.lsn ≤ j → j < e.endLsn → w.file[j]? ≠ some b →
      ∃ m, openFile (w.file.set j b) = .error ⟨.corruptWal, m⟩) := by
  obtain ⟨hlog, hwhole, hentries⟩ := logged_new.appendAll rfl h
  have hstream : Stream 0 w.entries w.file := by
    have := hlog.stream
    rwa [List.take_of_length_le (Nat.le_of_eq hwhole)] at this
  refine ⟨⟨hentries, hstream, fun e he => hstream.encoded e he⟩, fun n => ⟨_, rfl, ?_⟩, fun e he j b hlo hhi hb => ?_⟩
  · have hscan := hstream.scan_cut n
    have hle := stopOf_keptTo n w.entries
    rw [Nat.zero_add] at hscan
    have htake : (w.file.take n).take (Stream.stopOf 0 (Stream.keptTo n w.entries)) =
        w.file.take (Stream.stopOf 0 (Stream.keptTo n w.entries)) := by
      rw [List.take_take, Nat.min_eq_left hle]
    rw [openFile_eq, hscan]
    simp only [bind, Except.bind, htake]
    rfl
  · obtain ⟨m, hm⟩ := hstream.changed e he j b (by omega) (by omega) hb
    exact ⟨m, by rw [openFile_eq, hm]; rfl⟩

theorem open_cut_exact_two_records : ∃ w, appendAll new [(1, .begin), (1, .commit)] = .ok w ∧
    (∃ stop, stop = ((w.entries.filter (fun e => e.endLsn ≤ 50)).getLast?.map DecodedWalRecord.endLsn).getD 0 ∧
      openFile (w.file.take 50) = .ok ⟨w.file.take stop, w.entries.filter (fun e => e.endLsn ≤ 50), stop, stop⟩) ∧
    ∃ m, openFile (w.file.set 20 7) = .error ⟨.corruptWal, m⟩ := by
  have h : appendAll new [(1, .begin), (1, .commit)] = .ok ((new.append 1 .begin none).1.append 1 .commit none).1 := by
    decide +kernel
  obtain ⟨-, hcut, hset⟩ := open_cut_exact h
  exact ⟨_, h, hcut 50, hset ⟨0, 36, 1, .begin⟩ (by decide +kernel) 20 7 (by decide) (by decide) (by decide +kernel)⟩

/-! ## Failed appends -/

/-- A run of appends, each with the number of bytes after which its write fails, if it does; with the records of those that
returned. -/
def appendRun : WalManager → List (Nat × RawRecord × Option Nat) → WalManager × List (Nat × RawRecord)
  | w, []                              => (w, [])
  | w, (xid, record, fails) :: calls =>
    let called := w.append xid record fails
    let rest   := appendRun called.1 calls
    match called.2 with
    | .ok _    => (rest.1, (xid, record) :: rest.2)
    | .error _ => rest

theorem Logged.appendRun : ∀ {calls : List (Nat × RawRecord × Option Nat)} {w : WalManager}, Logged w →
    Logged (appendRun w calls).1 ∧ (appendRun w calls).1.entries.map (fun e => (e.xid, e.record)) =
      w.entries.map (fun e => (e.xid, e.record)) ++ (appendRun w calls).2
  | [], w, h => ⟨h, (List.append_nil _).symm⟩
  | (xid, record, fails) :: calls, w, h => by
    obtain ⟨hlog, hentries⟩ := h.append xid record fails
    obtain ⟨hlog', hentries'⟩ := @Logged.appendRun calls _ hlog
    unfold WalManager.appendRun
    cases hr : (w.append xid record fails).2 with
    | ok lsn =>
      simp only [hr] at hentries ⊢
      exact ⟨hlog', by rw [hentries', hentries, List.append_assoc]; rfl⟩
    | error e =>
      simp only [hr] at hentries ⊢
      exact ⟨hlog', by rw [hentries', hentries, List.append_nil]⟩

/-- Bytes that the scan passes over at the end of a file: too few for a header, a bad header with nothing behind it, a record
that runs past the end, or a bad record with nothing behind it. -/
def TornTail (tail : ByteString) : Prop :=
  tail.length < headerSize ∨
    match recordLengthFromHeader (tail.take headerSize) with
    | .error _  => tail.length = headerSize
    | .ok total => tail.length < total ∨ tail.length = total ∧ ∃ e, decodeRecord tail = .error e

theorem scanRest_tornTail (pos : Nat) (tail : ByteString) : scanRest pos tail = .ok ([], pos) ↔ TornTail tail := by
  unfold TornTail
  rw [scanRest_eq]
  by_cases hlen : tail.length < headerSize
  · rw [if_pos hlen]
    simp only [hlen, true_or]
  · rw [if_neg hlen]
    simp only [hlen, false_or]
    cases htotal : recordLengthFromHeader (tail.take headerSize) with
    | error e => by_cases he : tail.length = headerSize <;> simp [he]
    | ok total =>
      simp only
      by_cases hlt : tail.length < total
      · simp only [hlt, true_or, if_true]
      · simp only [hlt, false_or, if_false]
        cases hdec : decodeRecord (tail.take total) with
        | error e =>
          by_cases he : tail.length = total
          · have : decodeRecord tail = .error e := by rw [← hdec, ← he, List.take_length]
            simp [he, this]
          · simp [he]
        | ok entry =>
          have hno : ¬ (tail.length = total ∧ ∃ e, decodeRecord tail = .error e) := by
            rintro ⟨he, e, hd⟩
            rw [← he, List.take_length, hd] at hdec
            cases hdec
          simp only [hno, iff_false]
          split
          · exact raise_ne_ok
          · intro hs
            obtain ⟨r, -, hr⟩ := bind_eq_ok.1 hs
            cases hr

/-- **After failed appends the log opens to the records of those that returned exactly when what was left behind the last of
them is a torn tail.** -/
theorem open_after_failures_iff (calls : List (Nat × RawRecord × Option Nat)) :
    (∃ w, openFile (appendRun new calls).1.file = .ok w ∧
      w.entries.map (fun e => (e.xid, e.record)) = (appendRun new calls).2 ∧ w.endLsn = (appendRun new calls).1.endLsn) ↔
    TornTail ((appendRun new calls).1.file.drop (appendRun new calls).1.endLsn) := by
  obtain ⟨hlog, hentries⟩ := @Logged.appendRun calls _ logged_new
  generalize appendRun new calls = run at hlog hentries ⊢
  obtain ⟨w, returned⟩ := run
  have hlen : (w.file.take w.endLsn).length = w.endLsn := List.length_take_of_le hlog.within
  have hscan := hlog.stream.scan (w.file.drop w.endLsn)
  rw [List.take_append_drop, hlen, Nat.zero_add] at hscan
  rw [← scanRest_tornTail w.endLsn, openFile_eq, hscan]
  constructor
  · rintro ⟨w', ho, he, hend⟩
    obtain ⟨r, hr, ho⟩ := bind_eq_ok.1 ho
    obtain ⟨r', hr', heq⟩ := bind_eq_ok.1 hr
    cases heq
    cases ho
    have hnil : r'.1 = [] := by
      have := congrArg List.length (he.trans hentries.symm)
      simp only [List.length_map, List.length_append] at this
      exact List.eq_nil_of_length_eq_zero (by omega)
    rw [hr']
    exact congrArg Except.ok (Prod.ext hnil hend)
  · intro ht
    rw [ht]
    exact ⟨_, rfl, by simpa [new] using hentries, rfl⟩

def blankImage : RelationPage × PageBytes := (⟨.heap, 1, 0⟩, ⟨List.replicate walPageSize 0, List.length_replicate⟩)

/-- A page image whose write fails after 100 bytes, then a commit record that overwrites the first 36 of them. -/
def shorterRetry : List (Nat × RawRecord × Option Nat) :=
  [(1, .heapPageImages [blankImage] (List.cons_ne_nil _ _), some 100), (1, .commit, none)]

theorem open_after_failures_corrupt :
    (appendRun new shorterRetry).2 = [(1, .commit)] ∧
    openFile (appendRun new shorterRetry).1.file = .error ⟨.corruptWal, "invalid WAL header"⟩ ∧
    ¬ ∃ w, openFile (appendRun new shorterRetry).1.file = .ok w ∧
      w.entries.map (fun e => (e.xid, e.record)) = (appendRun new shorterRetry).2 ∧
      w.endLsn = (appendRun new shorterRetry).1.endLsn := by
  have hopen : openFile (appendRun new shorterRetry).1.file = .error ⟨.corruptWal, "invalid WAL header"⟩ := by
    decide +kernel
  refine ⟨by decide +kernel, hopen, ?_⟩
  rintro ⟨w, hw, -⟩
  cases hopen.symm.trans hw

end WalManager
end MiniPostgres
