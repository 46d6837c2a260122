import RaftShardedKv.Raft.Node
import RaftShardedKv.Lib.LittleEndian

/-!
The layout of the persistent state, from `persist` and `readCachedPersist` in
`raft1/raft.go`.

It is a magic word, four signed numbers, the number of log entries, and each
entry's length and bytes; all numbers take eight bytes, the lowest first. The
reader keeps an offset into the data, as the source does, and every place
where it cuts a slice may in principle be out of range. The offsets are exact
in `readCachedPersist`; `readCachedPersistInt` has them as the `int`s that
they are, where a result that does not fit is an error of its own.
-/

namespace RaftShardedKv

variable {C : Type} [Labgob C]

/-! ### Layout -/

def persistMagic : Bytes := [82, 70, 84, 50]

def persistHeaderSize : ℕ := persistMagic.length + 5 * 8

/-- `binary.LittleEndian.PutUint64` of an unsigned number. -/
def putUint64 (value : ℕ) : Bytes := LittleEndian.toBytes 8 value

def putInt (value : ℤ) : Bytes := putUint64 (LittleEndian.unsigned value)

/-- An entry of the log with its length before it. -/
def putEntry (encoded : Bytes) : Bytes := putUint64 encoded.length ++ encoded

/-! ### Reading -/

/-- How reading can panic: with a text of its own, because an entry does
not decode, or because a slice is out of range. -/
inductive ReadPanic
  | text (message : String)
  | decode
  | outOfRange
  deriving DecidableEq, Repr

/-- The expression `data[lo:hi]`. -/
def slice (data : Bytes) (lo hi : ℕ) : Except ReadPanic Bytes :=
  if lo ≤ hi ∧ hi ≤ data.length then .ok ((data.take hi).drop lo) else .error .outOfRange

def readUint64 (data : Bytes) (offset : ℕ) : Except ReadPanic ℕ := do
  let bytes ← slice data offset (offset + 8)
  .ok (LittleEndian.ofBytes bytes)

def readInt (data : Bytes) (offset : ℕ) : Except ReadPanic ℤ := do
  let value ← readUint64 data offset
  .ok (LittleEndian.signed value)

/-- The loop over the entries: `count` of them from `offset` on. It
returns the entries, their encodings and the offset behind them. -/
def readEntries (C : Type) [Labgob C] (data : Bytes) :
    ℕ → ℕ → Except ReadPanic (List (LogEntry C) × List Bytes × ℕ)
  | 0, offset => .ok ([], [], offset)
  | count + 1, offset =>
      if data.length < offset + 8 then .error (.text "raft: 持久化日志长度缺失")
      else do
        let length ← readUint64 data offset
        if data.length - (offset + 8) < length then .error (.text "raft: 持久化日志内容不完整")
        else do
          let encoded ← slice data (offset + 8) (offset + 8 + length)
          match Labgob.decodeLogEntry encoded with
          | none => .error .decode
          | some entry => do
              let (logs, encodedLogs, offset) ← readEntries C data count (offset + 8 + length)
              .ok (entry :: logs, encoded :: encodedLogs, offset)

/-- The variables that `readCachedPersist` assigns. -/
structure CachedPersist (C : Type) where
  currentTerm : ℤ
  votedFor : ℤ
  logs : List (LogEntry C)
  encodedLogs : List Bytes
  lastIncludedIndex : ℤ
  lastIncludedTerm : ℤ
  deriving DecidableEq, Repr

/-- `none` is the result `false`: the data is not in this layout. -/
def readCachedPersist (C : Type) [Labgob C] (data : Bytes) :
    Except ReadPanic (Option (CachedPersist C)) :=
  if data.length < persistHeaderSize ∨ data.take persistMagic.length ≠ persistMagic then .ok none
  else do
    let offset := persistMagic.length
    let currentTerm ← readInt data offset
    let votedFor ← readInt data (offset + 8)
    let lastIncludedIndex ← readInt data (offset + 16)
    let lastIncludedTerm ← readInt data (offset + 24)
    let count ← readUint64 data (offset + 32)
    if count = 0 ∨ (data.length - (offset + 40)) / 8 < count then
      .error (.text "raft: 持久化日志数量无效")
    else do
      let (logs, encodedLogs, offset) ← readEntries C data count (offset + 40)
      if offset ≠ data.length then .error (.text "raft: 持久化状态包含多余数据")
      else .ok (some ⟨currentTerm, votedFor, logs, encodedLogs, lastIncludedIndex,
        lastIncludedTerm⟩)

/-- The bytes of `raftState` in `persist`, which is filled from left to right. -/
def CachedPersist.bytes (rf : CachedPersist C) : Bytes :=
  persistMagic ++ putInt rf.currentTerm ++ putInt rf.votedFor ++ putInt rf.lastIncludedIndex ++
    putInt rf.lastIncludedTerm ++ putUint64 rf.encodedLogs.length ++
    rf.encodedLogs.flatMap putEntry

/-! ### Reading undoes writing -/

/-- The numbers fit the 64 bits the source has for them. -/
structure CachedPersist.Fits (rf : CachedPersist C) : Prop where
  currentTerm : -2 ^ 63 ≤ rf.currentTerm ∧ rf.currentTerm < 2 ^ 63
  votedFor : -2 ^ 63 ≤ rf.votedFor ∧ rf.votedFor < 2 ^ 63
  lastIncludedIndex : -2 ^ 63 ≤ rf.lastIncludedIndex ∧ rf.lastIncludedIndex < 2 ^ 63
  lastIncludedTerm : -2 ^ 63 ≤ rf.lastIncludedTerm ∧ rf.lastIncludedTerm < 2 ^ 63

theorem slice_append (pre mid post : Bytes) {lo hi : ℕ} (hlo : lo = pre.length)
    (hhi : hi = pre.length + mid.length) : slice (pre ++ mid ++ post) lo hi = .ok mid := by
  subst hlo hhi
  have hlen : pre.length + mid.length = (pre ++ mid).length := by simp
  have hle : pre.length ≤ pre.length + mid.length ∧
      pre.length + mid.length ≤ (pre ++ mid ++ post).length := by
    simp only [List.length_append]
    omega
  rw [slice, if_pos hle, hlen, List.take_left, List.drop_left]

theorem readUint64_append (pre post : Bytes) {value offset : ℕ} (hoffset : offset = pre.length)
    (hvalue : value < 256 ^ 8) :
    readUint64 (pre ++ putUint64 value ++ post) offset = .ok value := by
  have hslice := slice_append pre (putUint64 value) post hoffset
    (show offset + 8 = _ by simp [putUint64, hoffset])
  rw [readUint64, hslice]
  show Except.ok _ = _
  rw [putUint64, LittleEndian.ofBytes_toBytes hvalue]

theorem readUint64_words (words : List ℕ) (pre post : Bytes) {k value : ℕ}
    (hk : words[k]? = some value) (hvalue : value < 256 ^ 8) :
    readUint64 (pre ++ words.flatMap putUint64 ++ post) (pre.length + 8 * k) = .ok value := by
  induction words generalizing pre k with
  | nil => simp at hk
  | cons w words ih =>
      cases k with
      | zero =>
          have hw : w = value := by simpa using hk
          subst hw
          have hread := readUint64_append pre (words.flatMap putUint64 ++ post) rfl hvalue
          simpa only [List.flatMap_cons, List.append_assoc, Nat.mul_zero, Nat.add_zero] using hread
      | succ k =>
          have hread := ih (pre ++ putUint64 w) (by simpa using hk)
          have hoffset : (pre ++ putUint64 w).length + 8 * k = pre.length + 8 * (k + 1) := by
            simp only [List.length_append, putUint64, LittleEndian.length_toBytes]
            omega
          rw [hoffset] at hread
          simpa only [List.flatMap_cons, List.append_assoc] using hread

theorem length_putEntry (encoded : Bytes) : (putEntry encoded).length = 8 + encoded.length := by
  simp [putEntry, putUint64]

/-- The loop reads back the entries that were laid out behind `pre`. -/
theorem readEntries_append (logs : List (LogEntry C)) (pre : Bytes)
    (hfits : (pre ++ (logs.map Labgob.encodeLogEntry).flatMap putEntry).length < 256 ^ 8) :
    readEntries C (pre ++ (logs.map Labgob.encodeLogEntry).flatMap putEntry) logs.length
      pre.length = .ok (logs, logs.map Labgob.encodeLogEntry,
        (pre ++ (logs.map Labgob.encodeLogEntry).flatMap putEntry).length) := by
  induction logs generalizing pre with
  | nil => simp [readEntries]
  | cons e logs ih =>
      have hih := ih (pre ++ putEntry (Labgob.encodeLogEntry e))
      simp only [List.map_cons, List.flatMap_cons, ← List.append_assoc] at hfits hih ⊢
      generalize hrest : (logs.map (Labgob.encodeLogEntry (C := C))).flatMap putEntry = rest
        at hfits hih ⊢
      generalize henc : Labgob.encodeLogEntry e = encoded at hfits hih ⊢
      have hdecode : Labgob.decodeLogEntry encoded = some e := henc ▸ Labgob.decode_encode e
      have hlen : (pre ++ putEntry encoded ++ rest).length =
          pre.length + 8 + encoded.length + rest.length := by
        simp only [List.length_append, length_putEntry]
        omega
      have hnext : (pre ++ putEntry encoded).length = pre.length + 8 + encoded.length := by
        rw [List.length_append, length_putEntry, Nat.add_assoc]
      have hlength : readUint64 (pre ++ putEntry encoded ++ rest) pre.length =
          .ok encoded.length := by
        have hread := readUint64_append pre (encoded ++ rest) rfl
          (show encoded.length < 256 ^ 8 by omega)
        simpa only [putEntry, List.append_assoc] using hread
      have hslice : slice (pre ++ putEntry encoded ++ rest) (pre.length + 8)
          (pre.length + 8 + encoded.length) = .ok encoded := by
        have hcut := slice_append (pre ++ putUint64 encoded.length) encoded rest
          (show pre.length + 8 = _ by simp [putUint64])
          (show pre.length + 8 + encoded.length = _ by simp [putUint64])
        simpa only [putEntry, List.append_assoc] using hcut
      have hlast := hih hfits
      rw [hnext] at hlast
      rw [List.length_cons, readEntries, if_neg (by omega), hlength]
      simp only [bind, Except.bind]
      rw [if_neg (by omega), hslice]
      simp only [hdecode, hlast]

theorem length_flatMap_putEntry (encodedLogs : List Bytes) :
    8 * encodedLogs.length ≤ (encodedLogs.flatMap putEntry).length := by
  induction encodedLogs with
  | nil => simp
  | cons e es ih =>
      simp only [List.flatMap_cons, List.length_append, length_putEntry, List.length_cons]
      omega

namespace CachedPersist

variable (rf : CachedPersist C)

/-- The header behind the magic word is five numbers. -/
def header : List ℕ :=
  [LittleEndian.unsigned rf.currentTerm, LittleEndian.unsigned rf.votedFor,
    LittleEndian.unsigned rf.lastIncludedIndex, LittleEndian.unsigned rf.lastIncludedTerm,
    rf.encodedLogs.length]

omit [Labgob C] in
theorem bytes_eq :
    rf.bytes = persistMagic ++ rf.header.flatMap putUint64 ++ rf.encodedLogs.flatMap putEntry := by
  simp only [bytes, header, putInt, List.flatMap_cons, List.flatMap_nil, List.append_assoc,
    List.append_nil]

omit [Labgob C] in
theorem length_header :
    (persistMagic ++ rf.header.flatMap putUint64).length = persistHeaderSize := by
  simp [header, persistHeaderSize, persistMagic, putUint64]

omit [Labgob C] in
theorem length_bytes :
    rf.bytes.length = persistHeaderSize + (rf.encodedLogs.flatMap putEntry).length := by
  rw [rf.bytes_eq, List.length_append, rf.length_header]

omit [Labgob C] in
theorem readInt_header {k : ℕ} {value : ℤ}
    (hk : rf.header[k]? = some (LittleEndian.unsigned value))
    (hvalue : -2 ^ 63 ≤ value ∧ value < 2 ^ 63) :
    readInt rf.bytes (persistMagic.length + 8 * k) = .ok value := by
  rw [readInt, rf.bytes_eq, readUint64_words rf.header persistMagic _ hk
    (LittleEndian.unsigned_lt value)]
  show Except.ok _ = _
  rw [LittleEndian.signed_unsigned hvalue.1 hvalue.2]

end CachedPersist

/-- **Reading undoes writing**: of a state whose log is not empty and
whose numbers fit their bytes. -/
theorem readCachedPersist_bytes {rf : CachedPersist C}
    (hlogs : rf.encodedLogs = rf.logs.map Labgob.encodeLogEntry) (hne : rf.logs ≠ [])
    (h : rf.Fits) (hlength : rf.bytes.length < 256 ^ 8) :
    readCachedPersist C rf.bytes = .ok (some rf) := by
  have hcount := length_flatMap_putEntry rf.encodedLogs
  have hsize := rf.length_bytes
  have hheader : persistHeaderSize = persistMagic.length + 40 := rfl
  have hpos : 0 < rf.encodedLogs.length := by
    rw [hlogs, List.length_map]
    exact List.length_pos_iff.mpr hne
  have hmagic : rf.bytes.take persistMagic.length = persistMagic := by
    rw [rf.bytes_eq, List.append_assoc, List.take_left]
  have hnumber : readUint64 rf.bytes (persistMagic.length + 8 * 4) =
      .ok rf.encodedLogs.length := by
    rw [rf.bytes_eq]
    exact readUint64_words rf.header persistMagic _ rfl (by omega)
  have hentries : readEntries C rf.bytes rf.encodedLogs.length (persistMagic.length + 40) =
      .ok (rf.logs, rf.encodedLogs, rf.bytes.length) := by
    have hread := readEntries_append rf.logs (persistMagic ++ rf.header.flatMap putUint64)
      (by rw [← hlogs, ← rf.bytes_eq]; omega)
    rw [← hlogs, ← rf.bytes_eq, rf.length_header] at hread
    rw [hlogs, List.length_map, ← hlogs]
    exact hread
  have hterm : readInt rf.bytes persistMagic.length = .ok rf.currentTerm :=
    rf.readInt_header (k := 0) rfl h.currentTerm
  have hvote : readInt rf.bytes (persistMagic.length + 8) = .ok rf.votedFor :=
    rf.readInt_header (k := 1) rfl h.votedFor
  have hindex : readInt rf.bytes (persistMagic.length + 16) = .ok rf.lastIncludedIndex :=
    rf.readInt_header (k := 2) rfl h.lastIncludedIndex
  have hbase : readInt rf.bytes (persistMagic.length + 24) = .ok rf.lastIncludedTerm :=
    rf.readInt_header (k := 3) rfl h.lastIncludedTerm
  rw [readCachedPersist, if_neg (by rw [not_or, not_not, not_lt]; exact ⟨by omega, hmagic⟩)]
  simp only [bind, Except.bind, hterm, hvote, hindex, hbase]
  rw [hnumber]
  dsimp only
  rw [if_neg (by omega), hentries]
  simp

/-! ### Writing undoes reading -/

/-- An answer of the reader that is a result or one of the panics that the
source has foreseen, where the results have `P`. -/
def Foreseen {α : Type} (P : α → Prop) : Except ReadPanic α → Prop
  | .ok a => P a
  | .error p => p ≠ .outOfRange

theorem Foreseen.bind {α β : Type} {P : α → Prop} {Q : β → Prop} {x : Except ReadPanic α}
    {f : α → Except ReadPanic β} (hx : Foreseen P x) (hf : ∀ a, P a → Foreseen Q (f a)) :
    Foreseen Q (x >>= f) := by
  cases x with
  | error p => exact hx
  | ok a => exact hf a hx

theorem foreseen_slice {data : Bytes} {lo hi : ℕ} (hlo : lo ≤ hi) (hhi : hi ≤ data.length) :
    Foreseen (fun b => b.length = hi - lo ∧ data.drop lo = b ++ data.drop hi)
      (slice data lo hi) := by
  rw [slice, if_pos ⟨hlo, hhi⟩]
  constructor
  · rw [List.length_drop, List.length_take, Nat.min_eq_left hhi]
  · have hle : lo ≤ (data.take hi).length := by
      rw [List.length_take]
      omega
    rw [← List.drop_append_of_le_length hle, List.take_append_drop]

theorem foreseen_readUint64 {data : Bytes} {offset : ℕ} (h : offset + 8 ≤ data.length) :
    Foreseen (fun v => v < 2 ^ 64 ∧ data.drop offset = putUint64 v ++ data.drop (offset + 8))
      (readUint64 data offset) := by
  refine (foreseen_slice (Nat.le_add_right offset 8) h).bind fun b hb => ?_
  have hlt := LittleEndian.ofBytes_lt b
  have hwrite := LittleEndian.toBytes_ofBytes b
  rw [hb.1, Nat.add_sub_cancel_left] at hlt hwrite
  refine ⟨hlt, ?_⟩
  rw [putUint64, hwrite]
  exact hb.2

theorem foreseen_readInt {data : Bytes} {offset : ℕ} (h : offset + 8 ≤ data.length) :
    Foreseen (fun v => data.drop offset = putInt v ++ data.drop (offset + 8))
      (readInt data offset) := by
  refine (foreseen_readUint64 h).bind fun v hv => ?_
  show _ = putInt (LittleEndian.signed v) ++ _
  rw [putInt, LittleEndian.unsigned_signed hv.1]
  exact hv.2

theorem foreseen_readEntries {data : Bytes} (count : ℕ) {offset : ℕ} (h : offset ≤ data.length) :
    Foreseen (fun (logs, encodedLogs, stop) => stop ≤ data.length ∧ logs.length = count ∧
      encodedLogs.length = count ∧
        data.drop offset = encodedLogs.flatMap putEntry ++ data.drop stop)
      (readEntries C data count offset) := by
  induction count generalizing offset with
  | zero => exact ⟨h, rfl, rfl, rfl⟩
  | succ count ih =>
      rw [readEntries]
      split
      · simp [Foreseen]
      · rename_i hlength
        refine (foreseen_readUint64 (by omega)).bind fun length hlen => ?_
        split
        · simp [Foreseen]
        · rename_i hcontent
          refine (foreseen_slice (Nat.le_add_right _ length) (by omega)).bind fun encoded henc => ?_
          split
          · simp [Foreseen]
          · refine (ih (by omega)).bind fun (logs, encodedLogs, stop) hrest => ?_
            obtain ⟨hstop, hlogs, hencs, hdrop⟩ := hrest
            refine ⟨hstop, by simp [hlogs], by simp [hencs], ?_⟩
            have hput : putUint64 length = putUint64 encoded.length := by
              rw [henc.1, Nat.add_sub_cancel_left]
            rw [hlen.2, henc.2, hdrop, List.flatMap_cons, putEntry, hput]
            simp only [List.append_assoc]

/-- What the reader accepts is laid out in exactly these bytes. -/
theorem foreseen_readCachedPersist (data : Bytes) :
    Foreseen (fun result => ∀ rf, result = some rf →
      rf.logs.length = rf.encodedLogs.length ∧ rf.bytes = data) (readCachedPersist C data) := by
  rw [readCachedPersist]
  split
  · exact fun rf h => absurd h nofun
  · rename_i hlayout
    rw [not_or, not_not, not_lt] at hlayout
    obtain ⟨hsize, hmagic⟩ := hlayout
    have hheader : persistHeaderSize = persistMagic.length + 40 := rfl
    refine (foreseen_readInt (by omega)).bind fun currentTerm hterm => ?_
    refine (foreseen_readInt (by omega)).bind fun votedFor hvote => ?_
    refine (foreseen_readInt (by omega)).bind fun lastIncludedIndex hindex => ?_
    refine (foreseen_readInt (by omega)).bind fun lastIncludedTerm hbase => ?_
    refine (foreseen_readUint64 (by omega)).bind fun count hcount => ?_
    dsimp only
    split
    · simp [Foreseen]
    · refine (foreseen_readEntries count (by omega)).bind
        fun (logs, encodedLogs, stop) hentries => ?_
      obtain ⟨hstop, hlogs, hencs, hdrop⟩ := hentries
      dsimp only
      split
      · simp [Foreseen]
      · rename_i hend
        rintro rf ⟨⟩
        rw [not_not] at hend
        refine ⟨hlogs.trans hencs.symm, ?_⟩
        have hall : data = data.take persistMagic.length ++ data.drop persistMagic.length :=
          (List.take_append_drop _ _).symm
        rw [hall, hmagic, hterm, hvote, hindex, hbase, hcount.2, hdrop, hend, List.drop_length]
        simp only [CachedPersist.bytes, hencs, List.append_assoc, List.append_nil]

/-! ### Offsets of 63 bits -/

/-- How the reader can fail, its offsets being `int`s: with a panic, or because
a number does not fit. -/
inductive ReadFault
  | panic (p : ReadPanic)
  | overflow
  deriving DecidableEq, Repr

def panics {α : Type} : Except ReadPanic α → Except ReadFault α := Except.mapError .panic

/-- A number that is not negative, as an `int`. -/
def fitInt (value : ℕ) : Except ReadFault ℕ :=
  if value < 2 ^ 63 then .ok value else .error .overflow

/-- The difference of two `int`s, made a `uint64`. -/
def uint64Sub (a b : ℕ) : Except ReadFault ℕ := if b ≤ a then .ok (a - b) else .error .overflow

/-- The closure `readInt`: a number and the offset behind it. -/
def readIntAt (data : Bytes) (offset : ℕ) : Except ReadFault (ℤ × ℕ) := do
  let next ← fitInt (offset + 8)
  let value ← panics (readInt data offset)
  .ok (value, next)

def readEntriesInt (C : Type) [Labgob C] (data : Bytes) :
    ℕ → ℕ → Except ReadFault (List (LogEntry C) × List Bytes × ℕ)
  | 0, offset => .ok ([], [], offset)
  | count + 1, offset => do
      let next ← fitInt (offset + 8)
      if data.length < next then .error (.panic (.text "raft: 持久化日志长度缺失"))
      else do
        let length ← panics (readUint64 data offset)
        let left ← uint64Sub data.length next
        if left < length then .error (.panic (.text "raft: 持久化日志内容不完整"))
        else do
          let length ← fitInt length
          let stop ← fitInt (next + length)
          let encoded ← panics (slice data next stop)
          match Labgob.decodeLogEntry encoded with
          | none => .error (.panic .decode)
          | some entry => do
              let (logs, encodedLogs, offset) ← readEntriesInt C data count stop
              .ok (entry :: logs, encoded :: encodedLogs, offset)

def readCachedPersistInt (C : Type) [Labgob C] (data : Bytes) :
    Except ReadFault (Option (CachedPersist C)) :=
  if data.length < persistHeaderSize ∨ data.take persistMagic.length ≠ persistMagic then .ok none
  else do
    let offset := persistMagic.length
    let (currentTerm, offset) ← readIntAt data offset
    let (votedFor, offset) ← readIntAt data offset
    let (lastIncludedIndex, offset) ← readIntAt data offset
    let (lastIncludedTerm, offset) ← readIntAt data offset
    let next ← fitInt (offset + 8)
    let count ← panics (readUint64 data offset)
    let left ← uint64Sub data.length next
    if count = 0 ∨ left / 8 < count then .error (.panic (.text "raft: 持久化日志数量无效"))
    else do
      let size ← fitInt count
      let (logs, encodedLogs, offset) ← readEntriesInt C data size next
      if offset ≠ data.length then .error (.panic (.text "raft: 持久化状态包含多余数据"))
      else .ok (some ⟨currentTerm, votedFor, logs, encodedLogs, lastIncludedIndex,
        lastIncludedTerm⟩)

/-- No slice of bytes is as long as this: its length and eight more are still
an `int`. -/
def maxBytes : ℕ := 2 ^ 63 - 9

theorem fitInt_of_lt {value : ℕ} (h : value < 2 ^ 63) : fitInt value = .ok value := if_pos h

theorem uint64Sub_of_le {a b : ℕ} (h : b ≤ a) : uint64Sub a b = .ok (a - b) := if_pos h

theorem exists_readUint64 {data : Bytes} {offset : ℕ} (h : offset + 8 ≤ data.length) :
    ∃ value, readUint64 data offset = .ok value := by
  rw [readUint64, slice, if_pos ⟨Nat.le_add_right offset 8, h⟩]
  exact ⟨_, rfl⟩

theorem exists_readIntAt {data : Bytes} (hdata : data.length < 2 ^ 63) {offset : ℕ}
    (h : offset + 8 ≤ data.length) :
    ∃ value, readInt data offset = .ok value ∧ readIntAt data offset = .ok (value, offset + 8) := by
  obtain ⟨value, hvalue⟩ := exists_readUint64 h
  have hread : readInt data offset = .ok (LittleEndian.signed value) := by
    rw [readInt, hvalue]
    rfl
  refine ⟨_, hread, ?_⟩
  rw [readIntAt, fitInt_of_lt (by omega), hread]
  rfl

theorem readEntriesInt_eq {data : Bytes} (hdata : data.length ≤ maxBytes) (count : ℕ) {offset : ℕ}
    (h : offset ≤ data.length) :
    readEntriesInt C data count offset = panics (readEntries C data count offset) := by
  have hmax : maxBytes = 2 ^ 63 - 9 := rfl
  induction count generalizing offset with
  | zero => rfl
  | succ count ih =>
      rw [readEntriesInt, readEntries, fitInt_of_lt (by omega)]
      simp only [bind, Except.bind]
      split
      · rfl
      · rename_i hnext
        cases hread : readUint64 data offset with
        | error p => rfl
        | ok length =>
            simp only [panics, Except.mapError, uint64Sub_of_le (not_lt.mp hnext)]
            split
            · rfl
            · rename_i hleft
              simp only [fitInt_of_lt (show length < 2 ^ 63 by omega),
                fitInt_of_lt (show offset + 8 + length < 2 ^ 63 by omega)]
              cases hslice : slice data (offset + 8) (offset + 8 + length) with
              | error p => rfl
              | ok encoded =>
                  cases hdecode : Labgob.decodeLogEntry (C := C) encoded with
                  | none => simp [hdecode]
                  | some entry =>
                      simp only [hdecode, ih (show offset + 8 + length ≤ data.length by omega)]
                      cases readEntries C data count (offset + 8 + length) <;> rfl

/-- In the header no number overflows either. -/
theorem readCachedPersistInt_eq {data : Bytes} (hdata : data.length ≤ maxBytes) :
    readCachedPersistInt C data = panics (readCachedPersist C data) := by
  have hmax : maxBytes = 2 ^ 63 - 9 := rfl
  have hheader : persistHeaderSize = persistMagic.length + 40 := rfl
  have hmagic : persistMagic.length = 4 := rfl
  rw [readCachedPersistInt, readCachedPersist]
  split
  · rfl
  · rename_i hlayout
    rw [not_or, not_lt] at hlayout
    obtain ⟨hsize, -⟩ := hlayout
    have hint : data.length < 2 ^ 63 := by omega
    obtain ⟨currentTerm, hterm, hterm'⟩ := exists_readIntAt hint
      (show persistMagic.length + 8 ≤ data.length by omega)
    obtain ⟨votedFor, hvote, hvote'⟩ := exists_readIntAt hint
      (show persistMagic.length + 8 + 8 ≤ data.length by omega)
    obtain ⟨lastIncludedIndex, hindex, hindex'⟩ := exists_readIntAt hint
      (show persistMagic.length + 16 + 8 ≤ data.length by omega)
    obtain ⟨lastIncludedTerm, hbase, hbase'⟩ := exists_readIntAt hint
      (show persistMagic.length + 24 + 8 ≤ data.length by omega)
    obtain ⟨count, hcount⟩ := exists_readUint64
      (show persistMagic.length + 32 + 8 ≤ data.length by omega)
    simp only [bind, Except.bind, hterm, hterm', hvote, hvote', hindex, hindex', hbase, hbase',
      hcount, fitInt_of_lt (show persistMagic.length + 32 + 8 < 2 ^ 63 by omega),
      uint64Sub_of_le (show persistMagic.length + 32 + 8 ≤ data.length by omega)]
    change (if count = 0 ∨ (data.length - (persistMagic.length + 40)) / 8 < count then _ else _) = _
    split
    · rfl
    · rename_i hsome
      rw [fitInt_of_lt (show count < 2 ^ 63 by omega)]
      dsimp only
      rw [readEntriesInt_eq hdata count (by omega)]
      cases readEntries C data count (persistMagic.length + 40) with
      | error p => rfl
      | ok entries =>
          simp only [panics, Except.mapError]
          split <;> rfl

/-! ### The codec is exact -/

namespace CachedPersist

variable {rf₀ rf : CachedPersist C} {data : Bytes}

/-- What `persist` hands to `Save`, or the text of its panic. No more bytes
than `maxBytes` can be made. -/
def persist (rf : CachedPersist C) : Except String Bytes :=
  if rf.encodedLogs.length ≠ rf.logs.length then .error "raft: 日志与持久化编码缓存不一致"
  else if maxBytes < rf.bytes.length then .error "makeslice: len out of range"
  else .ok rf.bytes

/-- `readCachedPersist` with its result and what it leaves in the fields, which
are assigned at its end. -/
def readCachedPersist (rf : CachedPersist C) (data : Bytes) :
    Except ReadFault Bool × CachedPersist C :=
  match readCachedPersistInt C data with
  | .error fault => (.error fault, rf)
  | .ok none => (.ok false, rf)
  | .ok (some fields) => (.ok true, fields)

theorem readCachedPersist_persist (hfits : rf.Fits) (hne : rf.logs ≠ [])
    (hlogs : rf.encodedLogs = rf.logs.map Labgob.encodeLogEntry)
    (hlength : rf.bytes.length ≤ maxBytes) :
    rf.persist = .ok rf.bytes ∧ rf₀.readCachedPersist rf.bytes = (.ok true, rf) := by
  have hmax : maxBytes = 2 ^ 63 - 9 := rfl
  constructor
  · rw [persist, if_neg (by simp [hlogs]), if_neg (by omega)]
  · rw [readCachedPersist, readCachedPersistInt_eq hlength,
      readCachedPersist_bytes hlogs hne hfits (by omega)]
    rfl

theorem persist_readCachedPersist (hlength : data.length ≤ maxBytes)
    (h : rf₀.readCachedPersist data = (.ok true, rf)) : rf.persist = .ok data := by
  have hread := foreseen_readCachedPersist (C := C) data
  rw [readCachedPersist, readCachedPersistInt_eq hlength] at h
  cases hresult : RaftShardedKv.readCachedPersist C data with
  | error p =>
      rw [hresult] at h
      cases h
  | ok result =>
      rw [hresult] at h hread
      cases result with
      | none => cases h
      | some fields =>
          cases h
          obtain ⟨hlogs, rfl⟩ := hread _ rfl
          rw [persist, if_neg (not_not.mpr hlogs.symm), if_neg (not_lt.mpr hlength)]

theorem readCachedPersist_in_range (hlength : data.length ≤ maxBytes) :
    (rf₀.readCachedPersist data).1 ≠ .error .overflow ∧
      (rf₀.readCachedPersist data).1 ≠ .error (.panic .outOfRange) := by
  have hread := foreseen_readCachedPersist (C := C) data
  rw [readCachedPersist, readCachedPersistInt_eq hlength]
  cases hresult : RaftShardedKv.readCachedPersist C data with
  | error p =>
      rw [hresult] at hread
      have hp : p ≠ .outOfRange := hread
      simpa [panics, Except.mapError] using hp
  | ok result => cases result <;> simp [panics, Except.mapError]

theorem readCachedPersist_unchanged (h : (rf₀.readCachedPersist data).1 ≠ .ok true) :
    (rf₀.readCachedPersist data).2 = rf₀ := by
  rw [readCachedPersist] at h ⊢
  split at h
  · rfl
  · rfl
  · exact absurd rfl h

end CachedPersist

/-- **The codec is exact.** What was written is read back; what is read is
written as the very bytes it was read from; no data makes the reader cut a
slice out of range or compute an offset that does not fit; and where the reader
does not return true, it leaves the fields as they were. -/
theorem persisted_codec_exact (C : Type) [Labgob C] (rf₀ : CachedPersist C) :
    (∀ rf : CachedPersist C, rf.Fits → rf.logs ≠ [] →
      rf.encodedLogs = rf.logs.map Labgob.encodeLogEntry → rf.bytes.length ≤ maxBytes →
      rf.persist = .ok rf.bytes ∧ rf₀.readCachedPersist rf.bytes = (.ok true, rf)) ∧
    ∀ data : Bytes, data.length ≤ maxBytes →
      (∀ rf, rf₀.readCachedPersist data = (.ok true, rf) → rf.persist = .ok data) ∧
      (rf₀.readCachedPersist data).1 ≠ .error .overflow ∧
      (rf₀.readCachedPersist data).1 ≠ .error (.panic .outOfRange) ∧
      ((rf₀.readCachedPersist data).1 ≠ .ok true → (rf₀.readCachedPersist data).2 = rf₀) := by
  refine ⟨fun rf hfits hne hlogs hlength => ?_,
    fun data hlength => ⟨fun rf hread => ?_, ?_, ?_, ?_⟩⟩
  · exact CachedPersist.readCachedPersist_persist hfits hne hlogs hlength
  · exact CachedPersist.persist_readCachedPersist hlength hread
  · exact (CachedPersist.readCachedPersist_in_range hlength).1
  · exact (CachedPersist.readCachedPersist_in_range hlength).2
  · exact CachedPersist.readCachedPersist_unchanged

end RaftShardedKv
