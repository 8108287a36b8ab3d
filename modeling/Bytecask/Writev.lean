import Bytecask.Blind.Append

/-! An append as the file sees it: each chunk is serialized into a buffer, its pieces are ranges of that buffer or values left
where they are, and one `pwritev` at the logical end writes them. -/

namespace Bytecask.Writev

open List EStateM

open Blind (inlineBytes kInlineValueBytes WritevLimits chunkLength runToEnd addPieces)

def zeroFillChunkBytes : ℕ := 4 * 1024 * 1024

def zeroBufferBytes : ℕ := 1024 * 1024

inductive AppendError where
  | narrowKey (size : ℕ)
  | narrowValue (size : ℕ)
  | shortWrite
deriving DecidableEq, Repr

/-- A file open for appends, with what becomes of its next writes (those past the end of the list succeed; of one that
fails, some bytes may be written) and its `pwritev` calls so far. -/
structure WritableFile where
  bytes : Bytes := []
  logicalEnd : ℕ := 0
  zeroedEnd : ℕ := 0
  capacity : ℕ := 0
  fates : List (Option ℕ) := []
  calls : List (ℕ × List Bytes) := []
deriving DecidableEq

abbrev Writing := EStateM AppendError WritableFile

def pwrite (bytes : Bytes) (offset : ℕ) (data : Bytes) : Bytes :=
  bytes.take offset ++ List.replicate (offset - bytes.length) 0 ++ data ++ bytes.drop (offset + data.length)

def write (offset : ℕ) (data : Bytes) : Writing Unit := do
  let f ← get
  match f.fates with
  | [] => set { f with bytes := pwrite f.bytes offset data }
  | none :: fates => set { f with bytes := pwrite f.bytes offset data, fates }
  | some n :: fates =>
    set { f with bytes := pwrite f.bytes offset (data.take n), fates }
    throw .shortWrite

def zeroFill (target : ℕ) : (fuel off : ℕ) → Writing Unit
  | 0, _ => pure ()
  | n + 1, off => do
    if target ≤ off then return
    let len := min zeroBufferBytes (target - off)
    write off (List.replicate len 0)
    zeroFill target n (off + len)

def ensureZeroed (writeEnd : ℕ) : Writing Unit := do
  let f ← get
  if f.capacity = 0 ∨ writeEnd ≤ f.zeroedEnd then return
  let chunkEnd := (writeEnd + zeroFillChunkBytes - 1) / zeroFillChunkBytes * zeroFillChunkBytes
  let target := max writeEnd (min chunkEnd f.capacity)
  zeroFill target (target - f.zeroedEnd) f.zeroedEnd
  modify (fun f => { f with zeroedEnd := target })

structure Piece where
  ext : Option Bytes := none
  start : ℕ := 0
  len : ℕ
deriving DecidableEq

structure Chunk where
  buf : Bytes := []
  pieces : List Piece := []
  totalBytes : ℕ := 0
  offsets : List ℕ := []

namespace Chunk

def put (c : Chunk) (bytes : Bytes) : Chunk := { c with buf := c.buf ++ bytes }

def runToEnd (c : Chunk) (start : ℕ) : Chunk :=
  match c.pieces with
  | ⟨none, at', len⟩ :: pieces => { c with pieces := ⟨none, at', len + (c.buf.length - start)⟩ :: pieces }
  | pieces => { c with pieces := ⟨none, start, c.buf.length - start⟩ :: pieces }

def addValue (c : Chunk) (value : Bytes) : Chunk := { c with pieces := ⟨some value, 0, value.length⟩ :: c.pieces }

def iovecs (c : Chunk) : List Bytes := c.pieces.reverse.map (fun p => p.ext.getD ((c.buf.drop p.start).take p.len))

def addRecord (c : Chunk) (header crcBytes : Bytes) (e : DataEntry) : Chunk :=
  let keyed := (c.put header).put e.key
  if inlineBytes e = e.size then ((keyed.put e.value).put crcBytes).runToEnd c.buf.length
  else
    let valued := (keyed.runToEnd c.buf.length).addValue e.value
    (valued.put crcBytes).runToEnd valued.buf.length

end Chunk

section Crc

variable (crc : Crc)

def headerAndCrc (e : DataEntry) : Except AppendError (Bytes × Bytes) :=
  if 256 ^ 2 ≤ e.key.length then .error (.narrowKey e.key.length)
  else if 256 ^ 4 ≤ e.value.length then .error (.narrowValue e.value.length)
  else .ok (e.header, e.crcBytes crc)

def addEntry (start : ℕ) (c : Chunk) (e : DataEntry) : Except AppendError Chunk :=
  (headerAndCrc crc e).map (fun h =>
    { c.addRecord h.1 h.2 e with
      offsets := c.offsets ++ [start + c.totalBytes]
      totalBytes := c.totalBytes + e.size })

def serializeChunk (start : ℕ) (chunk : List DataEntry) : Except AppendError Chunk := chunk.foldlM (addEntry crc start) {}

def pwritev (offset : ℕ) (iov : List Bytes) : Writing Unit := do
  modify (fun f => { f with calls := f.calls ++ [(offset, iov)] })
  write offset iov.flatten

def writeChunk (chunk : List DataEntry) : Writing (List ℕ) := do
  let start := (← get).logicalEnd
  match serializeChunk crc start chunk with
  | .error e => throw e
  | .ok c =>
    ensureZeroed (start + c.totalBytes)
    pwritev start c.iovecs
    modify (fun f => { f with logicalEnd := f.logicalEnd + c.totalBytes })
    return c.offsets

def chunksOf (lim : WritevLimits) : ℕ → List DataEntry → List (List DataEntry)
  | 0, _ => []
  | _ + 1, [] => []
  | n + 1, e :: es =>
    (e :: es).take (chunkLength lim (e :: es) 0 0 0) :: chunksOf lim n ((e :: es).drop (chunkLength lim (e :: es) 0 0 0))

def appendEntries (lim : WritevLimits) (entries : List DataEntry) : Writing (List ℕ) := do
  let offsets ← (chunksOf lim entries.length entries).mapM (writeChunk crc)
  return offsets.flatten

end Crc

section Pieces

variable {crc : Crc} {c : Chunk} {n : ℕ} {ps : List Blind.Piece}

def Piece.denote (buf : Bytes) (p : Piece) : Blind.Piece :=
  match p.ext with
  | some value => .ext value
  | none => .run ((buf.drop p.start).take p.len)

structure Covers (c : Chunk) (n : ℕ) (ps : List Blind.Piece) : Prop where
  pieces : c.pieces.map (Piece.denote c.buf) = ps
  within : ∀ p ∈ c.pieces, p.ext = none → p.start + p.len ≤ n
  last : ∀ p, c.pieces.head? = some p → p.ext = none → p.start + p.len = n
  le : n ≤ c.buf.length

lemma denote_append {buf : Bytes} {p : Piece} (h : p.ext = none → p.start + p.len ≤ buf.length) (bytes : Bytes) :
    p.denote (buf ++ bytes) = p.denote buf := by
  obtain ⟨ext, start, len⟩ := p
  cases ext with
  | some value => rfl
  | none =>
    have hle : start + len ≤ buf.length := h rfl
    simp only [Piece.denote]
    rw [drop_append_of_le_length (by omega), take_append_of_le_length (by rw [length_drop]; omega)]

lemma Covers.put (h : Covers c n ps) (bytes : Bytes) : Covers (c.put bytes) n ps where
  pieces := by
    rw [← h.pieces]
    refine map_congr_left fun p hp => denote_append (fun hp' => ?_) bytes
    exact (h.within p hp hp').trans h.le
  within := h.within
  last := h.last
  le := by
    have := h.le
    simp only [Chunk.put, length_append]
    omega

lemma Covers.addValue (h : Covers c n ps) (value : Bytes) : Covers (c.addValue value) n (.ext value :: ps) where
  pieces := by
    rw [← h.pieces]
    rfl
  within p hp hext := by
    rcases mem_cons.1 hp with rfl | hp
    · cases hext
    · exact h.within p hp hext
  last p hp hext := by
    cases hp
    cases hext
  le := h.le

lemma Covers.runToEnd (h : Covers c n ps) : Covers (c.runToEnd n) c.buf.length (runToEnd (c.buf.drop n) ps) := by
  have hle := h.le
  have hnew : Piece.denote c.buf ⟨none, n, c.buf.length - n⟩ = .run (c.buf.drop n) := by
    simp only [Piece.denote]
    rw [take_of_length_le (by rw [length_drop])]
  rw [Chunk.runToEnd]
  split
  · next start len pieces hp =>
    have hend : start + len = n := h.last ⟨none, start, len⟩ (by rw [hp]; rfl) rfl
    have hps : ps = .run ((c.buf.drop start).take len) :: pieces.map (Piece.denote c.buf) := by
      rw [← h.pieces, hp]
      rfl
    have hjoin : (c.buf.drop start).take (len + (c.buf.length - n)) = (c.buf.drop start).take len ++ c.buf.drop n := by
      rw [take_add, drop_drop, hend, take_of_length_le (l := c.buf.drop n) (by rw [length_drop])]
    refine ⟨?_, ?_, ?_, le_rfl⟩
    · rw [hps]
      simp only [Blind.runToEnd, map_cons, Piece.denote, hjoin]
    · intro p hmem hext
      rcases mem_cons.1 hmem with rfl | hmem
      · show start + (len + (c.buf.length - n)) ≤ c.buf.length
        omega
      · exact (h.within p (by rw [hp]; exact mem_cons_of_mem _ hmem) hext).trans hle
    · intro p hhead _
      cases hhead
      show start + (len + (c.buf.length - n)) = c.buf.length
      omega
  · next hp =>
    have hsame : Blind.runToEnd (c.buf.drop n) ps = .run (c.buf.drop n) :: ps := by
      rw [← h.pieces]
      cases hpieces : c.pieces with
      | nil => rfl
      | cons p pieces =>
        obtain ⟨ext, start, len⟩ := p
        cases ext with
        | none => exact absurd hpieces (hp start len pieces)
        | some value => rfl
    refine ⟨?_, ?_, ?_, le_rfl⟩
    · rw [hsame, ← h.pieces, map_cons, hnew]
    · intro p hmem hext
      rcases mem_cons.1 hmem with rfl | hmem
      · show n + (c.buf.length - n) ≤ c.buf.length
        omega
      · exact (h.within p hmem hext).trans hle
    · intro p hhead _
      cases hhead
      show n + (c.buf.length - n) = c.buf.length
      omega

lemma runToEnd_buf (c : Chunk) (n : ℕ) : (c.runToEnd n).buf = c.buf := by
  rw [Chunk.runToEnd]
  split <;> rfl

lemma Covers.addRecord (h : Covers c c.buf.length ps) (e : DataEntry) :
    Covers (c.addRecord e.header (e.crcBytes crc) e)
      (c.addRecord e.header (e.crcBytes crc) e).buf.length (addPieces crc ps e) := by
  have hkeyed := (h.put e.header).put e.key
  rw [Chunk.addRecord, addPieces]
  split_ifs
  · have hrun := ((hkeyed.put e.value).put (e.crcBytes crc)).runToEnd
    have hdrop : ((((c.put e.header).put e.key).put e.value).put
        (e.crcBytes crc)).buf.drop c.buf.length =
          e.header ++ e.key ++ e.value ++ e.crcBytes crc := by
      simp only [Chunk.put, append_assoc, drop_left]
    rw [hdrop] at hrun
    rw [runToEnd_buf]
    exact hrun
  · have hdrop : ((c.put e.header).put e.key).buf.drop c.buf.length = e.header ++ e.key := by
      simp only [Chunk.put, append_assoc, drop_left]
    have hrun : Covers (((c.put e.header).put e.key).runToEnd c.buf.length)
        (((c.put e.header).put e.key).runToEnd c.buf.length).buf.length
        (Blind.runToEnd (e.header ++ e.key) ps) := by
      rw [runToEnd_buf, ← hdrop]
      exact hkeyed.runToEnd
    have hcrc : ∀ (v : Chunk) (bytes : Bytes), (v.put bytes).buf.drop v.buf.length = bytes := by
      intro v bytes
      rw [Chunk.put, drop_left]
    have hlast := ((hrun.addValue e.value).put (e.crcBytes crc)).runToEnd
    rw [show (((c.put _).put e.key).runToEnd _).buf =
      ((((c.put _).put e.key).runToEnd _).addValue _).buf from rfl, hcrc] at hlast
    exact hlast

structure Serialized (crc : Crc) (start : ℕ) (chunk : List DataEntry) (c : Chunk) : Prop where
  covers : Covers c c.buf.length (chunk.foldl (addPieces crc) [])
  offsets : c.offsets = offsetsFrom start chunk
  total : c.totalBytes = bytesOf chunk

def Narrow (e : DataEntry) : Prop := e.key.length < 256 ^ 2 ∧ e.value.length < 256 ^ 4

lemma headerAndCrc_eq {e : DataEntry} (h : Narrow e) :
    headerAndCrc crc e = .ok (e.header, e.crcBytes crc) := by
  rw [headerAndCrc, if_neg (not_le.2 h.1), if_neg (not_le.2 h.2)]

lemma headerAndCrc_error {e : DataEntry} (h : ¬ Narrow e) : ∃ err, headerAndCrc crc e = .error err := by
  rw [headerAndCrc]
  split_ifs with hk hv
  · exact ⟨_, rfl⟩
  · exact ⟨_, rfl⟩
  · exact absurd ⟨not_le.1 hk, not_le.1 hv⟩ h

lemma serialized_nil (start : ℕ) : Serialized crc start [] {} where
  covers := ⟨rfl, nofun, nofun, le_rfl⟩
  offsets := rfl
  total := rfl

lemma Serialized.addEntry {start : ℕ} {chunk : List DataEntry} (h : Serialized crc start chunk c) {e : DataEntry} (he : Narrow e) :
    ∃ c', addEntry crc start c e = .ok c' ∧ Serialized crc start (chunk ++ [e]) c' := by
  refine ⟨_, by rw [Writev.addEntry, headerAndCrc_eq he]; rfl, ?_, ?_, ?_⟩
  · rw [foldl_append]
    obtain ⟨hp, hw, hl, hle⟩ := @Covers.addRecord crc c _ h.covers e
    exact ⟨hp, hw, hl, hle⟩
  · rw [offsetsFrom, located_append, map_append, ← offsetsFrom, ← h.offsets, ← h.total]
    rfl
  · rw [bytesOf_append, ← h.total]
    rfl

lemma serializeChunk_spec (start : ℕ) (chunk : List DataEntry) :
    (∃ c, serializeChunk crc start chunk = .ok c ∧ Serialized crc start chunk c) ∨
      ((∃ err, serializeChunk crc start chunk = .error err) ∧ ∃ e ∈ chunk, ¬ Narrow e) := by
  have hfold : ∀ (done rest : List DataEntry) (c : Chunk), Serialized crc start done c →
      (∃ c', rest.foldlM (addEntry crc start) c = .ok c' ∧ Serialized crc start (done ++ rest) c') ∨
        ((∃ err, rest.foldlM (addEntry crc start) c = .error err) ∧ ∃ e ∈ rest, ¬ Narrow e) := by
    intro done rest
    induction rest generalizing done with
    | nil =>
      intro c h
      rw [append_nil]
      exact .inl ⟨c, rfl, h⟩
    | cons e rest ih =>
      intro c h
      by_cases he : Narrow e
      · obtain ⟨c', hc', h'⟩ := h.addEntry he
        rw [foldlM_cons, hc', append_cons]
        rcases ih _ c' h' with hok | ⟨herr, x, hx, hwide⟩
        · exact .inl hok
        · exact .inr ⟨herr, x, mem_cons_of_mem e hx, hwide⟩
      · obtain ⟨err, herr⟩ := @headerAndCrc_error crc e he
        refine .inr ⟨⟨err, ?_⟩, e, mem_cons_self, he⟩
        rw [foldlM_cons, addEntry, herr]
        rfl
  exact hfold [] chunk {} (serialized_nil start)

lemma Serialized.iovecs {start : ℕ} {chunk : List DataEntry} (h : Serialized crc start chunk c) :
    c.iovecs = (chunk.foldl (addPieces crc) []).reverse.map Blind.Piece.bytes := by
  rw [← h.covers.pieces, ← map_reverse, map_map, Chunk.iovecs]
  refine map_congr_left fun p _ => ?_
  obtain ⟨ext, start, len⟩ := p
  cases ext <;> rfl

lemma Serialized.bytes {start : ℕ} {chunk : List DataEntry} (h : Serialized crc start chunk c) :
    c.iovecs.flatten = serializeAll crc chunk := by
  rw [h.iovecs]
  exact Blind.chunkBytes_eq chunk

end Pieces

section Writes

variable {f : WritableFile} {Q : Unit → WritableFile → Prop} {E : AppendError → WritableFile → Prop}

structure WritableFile.Sound (f : WritableFile) : Prop where
  within : f.logicalEnd ≤ f.bytes.length
  ahead : f.capacity ≠ 0 → f.logicalEnd ≤ f.zeroedEnd

def WritableFile.Smooth (f : WritableFile) : Prop := ∀ x ∈ f.fates, x = none

instance (f : WritableFile) : Decidable f.Smooth := inferInstanceAs (Decidable (∀ x ∈ f.fates, x = none))

lemma length_pwrite (bytes : Bytes) (offset : ℕ) (data : Bytes) :
    (pwrite bytes offset data).length = max bytes.length (offset + data.length) := by
  simp only [pwrite, length_append, length_take, length_replicate, length_drop]
  omega

lemma take_pwrite {bytes : Bytes} {n offset : ℕ} (hn : n ≤ offset) (hlen : n ≤ bytes.length) (data : Bytes) :
    (pwrite bytes offset data).take n = bytes.take n := by
  rw [pwrite, append_assoc, append_assoc, take_append_of_le_length (by rw [length_take]; omega),
    take_take, min_eq_left hn]

lemma take_pwrite_end {bytes : Bytes} {offset : ℕ} (hlen : offset ≤ bytes.length) (data : Bytes) :
    (pwrite bytes offset data).take (offset + data.length) = bytes.take offset ++ data := by
  have hfront : (bytes.take offset ++ data).length = offset + data.length := by
    rw [length_append, length_take_of_le hlen]
  rw [pwrite, Nat.sub_eq_zero_of_le hlen, replicate_zero, append_nil, ← hfront, take_left]

lemma wp_write {offset : ℕ} {data : Bytes}
    (hok : ∀ fates, (f.Smooth → ∀ x ∈ fates, x = none) → Q () { f with bytes := pwrite f.bytes offset data, fates })
    (herr : ∀ n fates, ¬ f.Smooth → E .shortWrite { f with bytes := pwrite f.bytes offset (data.take n), fates }) :
    (write offset data).wp Q E f := by
  simp only [write, wp_bind, wp_get]
  split
  · next hf => exact hf ▸ hok [] (by simp)
  · next fates hf =>
    refine hok fates fun hs x hx => hs x ?_
    rw [hf]
    exact mem_cons_of_mem _ hx
  · next n fates hf =>
    refine herr n fates fun hs => ?_
    have := hs _ (by rw [hf]; exact mem_cons_self)
    cases this

structure Untouched (f f' : WritableFile) : Prop where
  logicalEnd : f'.logicalEnd = f.logicalEnd
  capacity : f'.capacity = f.capacity
  calls : f'.calls = f.calls
  bytes : f'.bytes.take f.logicalEnd = f.bytes.take f.logicalEnd
  length : f.bytes.length ≤ f'.bytes.length
  smooth : f.Smooth → f'.Smooth

lemma Untouched.refl (f : WritableFile) : Untouched f f := ⟨rfl, rfl, rfl, rfl, le_rfl, id⟩

lemma Untouched.trans {f₁ f₂ f₃ : WritableFile} (h : Untouched f₁ f₂) (h' : Untouched f₂ f₃) : Untouched f₁ f₃ where
  logicalEnd := h'.logicalEnd.trans h.logicalEnd
  capacity := h'.capacity.trans h.capacity
  calls := h'.calls.trans h.calls
  bytes := by
    rw [← h.bytes, ← h.logicalEnd]
    exact h'.bytes
  length := h.length.trans h'.length
  smooth hs := h'.smooth (h.smooth hs)

lemma untouched_pwrite (h : f.logicalEnd ≤ f.bytes.length) {offset : ℕ} (hoff : f.logicalEnd ≤ offset) (data : Bytes)
    {fates : List (Option ℕ)} (hs : f.Smooth → ∀ x ∈ fates, x = none) :
    Untouched f { f with bytes := pwrite f.bytes offset data, fates } where
  logicalEnd := rfl
  capacity := rfl
  calls := rfl
  bytes := take_pwrite hoff h data
  length := by
    rw [length_pwrite]
    exact le_max_left _ _
  smooth := hs

lemma zeroFill_spec (h : f.logicalEnd ≤ f.bytes.length) (target fuel : ℕ) {off : ℕ} (hoff : f.logicalEnd ≤ off) :
    (zeroFill target fuel off).wp (fun _ f' => Untouched f f' ∧ f'.zeroedEnd = f.zeroedEnd)
      (fun _ f' => Untouched f f' ∧ f'.zeroedEnd = f.zeroedEnd ∧ ¬ f.Smooth) f := by
  induction fuel generalizing f off with
  | zero => exact ⟨.refl f, rfl⟩
  | succ fuel ih =>
    rw [zeroFill]
    split_ifs
    · exact ⟨.refl f, rfl⟩
    · rw [wp_bind]
      refine wp_write (fun fates hs => ?_) (fun n fates hs => ?_)
      · have hone := untouched_pwrite h hoff (List.replicate (min zeroBufferBytes (target - off)) 0) hs
        refine wp_mono (ih ?_ ?_) ?_ ?_
        · exact h.trans hone.length
        · exact hoff.trans (Nat.le_add_right _ _)
        · rintro - f' ⟨hf', hz⟩
          exact ⟨hone.trans hf', hz⟩
        · rintro - f' ⟨hf', hz, hrough⟩
          exact ⟨hone.trans hf', hz, fun hs' => hrough (hone.smooth hs')⟩
      · exact ⟨untouched_pwrite h hoff _ (fun hs' => absurd hs' hs), rfl, hs⟩

lemma ensureZeroed_spec (h : f.Sound) (writeEnd : ℕ) :
    (ensureZeroed writeEnd).wp (fun _ f' => Untouched f f' ∧ f'.Sound ∧ (f'.capacity ≠ 0 → writeEnd ≤ f'.zeroedEnd))
      (fun _ f' => Untouched f f' ∧ f'.Sound ∧ ¬ f.Smooth) f := by
  simp only [ensureZeroed, wp_bind, wp_get]
  split_ifs with hskip
  · refine ⟨.refl f, h, fun hc => ?_⟩
    exact hskip.resolve_left hc
  · rw [not_or, not_le] at hskip
    obtain ⟨hcap, hbehind⟩ := hskip
    have hahead := h.ahead hcap
    rw [wp_bind]
    refine wp_mono (zeroFill_spec h.within _ _ hahead) ?_ ?_
    · rintro - f' ⟨hf', -⟩
      refine ⟨⟨hf'.logicalEnd, hf'.capacity, hf'.calls, hf'.bytes, hf'.length, hf'.smooth⟩, ⟨?_, fun _ => ?_⟩, fun _ => ?_⟩
      · show f'.logicalEnd ≤ f'.bytes.length
        rw [hf'.logicalEnd]
        exact h.within.trans hf'.length
      · show f'.logicalEnd ≤ max _ _
        rw [hf'.logicalEnd]
        exact (hahead.trans hbehind.le).trans (le_max_left _ _)
      · exact le_max_left _ _
    · rintro - f' ⟨hf', hz, hrough⟩
      refine ⟨hf', ⟨?_, fun _ => ?_⟩, hrough⟩
      · rw [hf'.logicalEnd]
        exact h.within.trans hf'.length
      · rw [hf'.logicalEnd, hz]
        exact hahead

end Writes

section Append

variable {crc : Crc} {f : WritableFile}

def iovecsOf (crc : Crc) (chunk : List DataEntry) : List Bytes :=
  (chunk.foldl (addPieces crc) []).reverse.map Blind.Piece.bytes

def callsFrom (crc : Crc) : ℕ → List (List DataEntry) → List (ℕ × List Bytes)
  | _, [] => []
  | start, chunk :: chunks => (start, iovecsOf crc chunk) :: callsFrom crc (start + bytesOf chunk) chunks

structure Holds (crc : Crc) (f : WritableFile) (es : List DataEntry) (f' : WritableFile) : Prop where
  logicalEnd : f'.logicalEnd = f.logicalEnd + bytesOf es
  bytes : f'.bytes.take f'.logicalEnd = f.bytes.take f.logicalEnd ++ serializeAll crc es
  sound : f'.Sound

lemma Holds.nil (h : f.Sound) : Holds crc f [] f := ⟨rfl, by simp [serializeAll], h⟩

lemma Holds.append {es fs : List DataEntry} {f' f'' : WritableFile} (h : Holds crc f es f') (h' : Holds crc f' fs f'') :
    Holds crc f (es ++ fs) f'' where
  logicalEnd := by rw [h'.logicalEnd, h.logicalEnd, bytesOf_append, Nat.add_assoc]
  bytes := by rw [h'.bytes, h.bytes, serializeAll_append, append_assoc]
  sound := h'.sound

lemma Untouched.holds {f' : WritableFile} (h : Untouched f f') (hs : f'.Sound) : Holds crc f [] f' where
  logicalEnd := h.logicalEnd
  bytes := by
    rw [h.logicalEnd, h.bytes]
    simp [serializeAll]
  sound := hs

lemma writeChunk_spec (h : f.Sound) (chunk : List DataEntry) :
    (writeChunk crc chunk).wp
      (fun offsets f' => offsets = offsetsFrom f.logicalEnd chunk ∧ Holds crc f chunk f' ∧ (f.Smooth → f'.Smooth) ∧
        f'.calls = f.calls ++ callsFrom crc f.logicalEnd [chunk])
      (fun _ f' => Holds crc f [] f' ∧ f.calls <+: f'.calls ∧ ¬ (f.Smooth ∧ ∀ e ∈ chunk, Narrow e)) f := by
  simp only [writeChunk, wp_bind, wp_get]
  rcases @serializeChunk_spec crc f.logicalEnd chunk with ⟨c, hc, hser⟩ | ⟨⟨err, herr⟩, e, he, hwide⟩
  · simp only [hc, wp_bind]
    refine wp_mono (ensureZeroed_spec h _) ?_ ?_
    · rintro - f₁ ⟨hf₁, hs₁, hzero⟩
      have hlen : (c.iovecs.flatten).length = c.totalBytes := by
        rw [hser.bytes, serializeAll_length, hser.total]
      refine wp_write (fun fates hfates => ?_) (fun n fates hrough => ?_)
      · simp only [wp_pure]
        refine ⟨hser.offsets, ⟨?_, ?_, ?_, fun hcap => ?_⟩, fun hs => hfates (hf₁.smooth hs), ?_⟩
        · show f₁.logicalEnd + c.totalBytes = _
          rw [hf₁.logicalEnd, hser.total]
        · show (pwrite _ _ _).take _ = _
          have hin : f.logicalEnd ≤ f₁.bytes.length := h.within.trans hf₁.length
          rw [hf₁.logicalEnd, ← hlen, take_pwrite_end hin, hf₁.bytes, hser.bytes]
        · show f₁.logicalEnd + c.totalBytes ≤ (pwrite _ _ _).length
          rw [length_pwrite, hf₁.logicalEnd, hlen]
          exact le_max_right _ _
        · show f₁.logicalEnd + c.totalBytes ≤ f₁.zeroedEnd
          rw [hf₁.logicalEnd]
          exact hzero hcap
        · show f₁.calls ++ [(f.logicalEnd, c.iovecs)] = _
          rw [hf₁.calls, hser.iovecs]
          rfl
      · have hcut : Untouched f₁ { f₁ with bytes := pwrite f₁.bytes f.logicalEnd (c.iovecs.flatten.take n), fates } :=
          untouched_pwrite hs₁.within hf₁.logicalEnd.le _ (fun hs => absurd hs hrough)
        have hboth := hf₁.trans hcut
        refine ⟨⟨hboth.logicalEnd, (hboth.holds ⟨?_, hs₁.ahead⟩).bytes, ⟨?_, hs₁.ahead⟩⟩, ?_, fun hs => ?_⟩
        · exact hs₁.within.trans hcut.length
        · exact hs₁.within.trans hcut.length
        · show f.calls <+: _ ++ [(f.logicalEnd, c.iovecs)]
          rw [hf₁.calls]
          exact prefix_append _ _
        · exact hrough (hf₁.smooth hs.1)
    · rintro - f₁ ⟨hf₁, hs₁, hrough⟩
      refine ⟨hf₁.holds hs₁, ?_, fun hs => hrough hs.1⟩
      rw [hf₁.calls]
  · simp only [herr, wp_throw]
    exact ⟨.nil h, prefix_rfl, fun hs => hwide (hs.2 e he)⟩

lemma writeChunks_spec (h : f.Sound) (chunks : List (List DataEntry)) :
    (chunks.mapM (writeChunk crc)).wp
      (fun offsets f' => offsets.flatten = offsetsFrom f.logicalEnd chunks.flatten ∧ Holds crc f chunks.flatten f' ∧
        f'.calls = f.calls ++ callsFrom crc f.logicalEnd chunks)
      (fun _ f' => ¬ (f.Smooth ∧ ∀ e ∈ chunks.flatten, Narrow e) ∧ ∃ done chunk rest, chunks = done ++ chunk :: rest ∧
        Holds crc f done.flatten f' ∧ f.calls ++ callsFrom crc f.logicalEnd done <+: f'.calls) f := by
  induction chunks generalizing f with
  | nil =>
    exact ⟨rfl, .nil h, (append_nil _).symm⟩
  | cons chunk chunks ih =>
    rw [mapM_cons, wp_bind]
    refine wp_mono (writeChunk_spec h chunk) ?_ ?_
    · rintro offsets f₁ ⟨hoff, hholds, hsmooth, hcalls⟩
      rw [wp_bind]
      refine wp_mono (ih hholds.sound) ?_ ?_
      · rintro rest f₂ ⟨hrest, hholds', hcalls'⟩
        refine ⟨?_, hholds.append hholds', ?_⟩
        · rw [flatten_cons, flatten_cons, hoff, hrest, hholds.logicalEnd, offsetsFrom, offsetsFrom, offsetsFrom,
            located_append, map_append]
        · rw [hcalls', hcalls, hholds.logicalEnd, append_assoc]
          rfl
      · rintro - f₂ ⟨hrough, done, c, rest, rfl, hholds', hcalls'⟩
        refine ⟨fun hs => hrough ⟨hsmooth hs.1, fun e he => hs.2 e ?_⟩, chunk :: done, c, rest, rfl, hholds.append hholds', ?_⟩
        · rw [flatten_cons]
          exact mem_append_right _ he
        · rw [hcalls, hholds.logicalEnd, append_assoc] at hcalls'
          exact hcalls'
    · rintro - f₁ ⟨hholds, hcalls, hrough⟩
      refine ⟨fun hs => hrough ⟨hs.1, fun e he => hs.2 e ?_⟩, [], chunk, chunks, rfl, hholds, ?_⟩
      · rw [flatten_cons]
        exact mem_append_left _ he
      · rw [callsFrom, append_nil]
        exact hcalls

lemma chunksOf_spec (lim : WritevLimits) (n : ℕ) {es : List DataEntry} (hn : es.length ≤ n) :
    (chunksOf lim n es).flatten = es ∧ ∀ c ∈ chunksOf lim n es, c ≠ [] := by
  induction n generalizing es with
  | zero =>
    rw [eq_nil_of_length_eq_zero (Nat.le_zero.1 hn)]
    exact ⟨rfl, nofun⟩
  | succ n ih =>
    cases es with
    | nil => exact ⟨rfl, nofun⟩
    | cons e es =>
      have hpos := Blind.chunkLength_pos lim e es
      obtain ⟨hflat, hne⟩ := @ih ((e :: es).drop (chunkLength lim (e :: es) 0 0 0)) (by rw [length_drop]; omega)
      rw [chunksOf]
      refine ⟨?_, fun c hc => ?_⟩
      · rw [flatten_cons, hflat, take_append_drop]
      · rcases mem_cons.1 hc with rfl | hc
        · rw [Ne, take_eq_nil_iff, not_or]
          exact ⟨hpos.ne', cons_ne_nil _ _⟩
        · exact hne c hc

lemma addPieces_append (p : Blind.Piece) (front base : List Blind.Piece) (e : DataEntry) :
    ∃ q front', addPieces crc (p :: front) e = q :: front' ∧ addPieces crc (p :: front ++ base) e = q :: front' ++ base := by
  have hrun : ∀ (bytes : Bytes) (p : Blind.Piece) (front : List Blind.Piece), ∃ q front', runToEnd bytes (p :: front) = q :: front' ∧
      runToEnd bytes (p :: front ++ base) = q :: front' ++ base := by
    intro bytes p front
    cases p with
    | run | ext => exact ⟨_, _, rfl, rfl⟩
  rw [addPieces, addPieces]
  split_ifs
  · exact hrun _ p front
  · obtain ⟨q, front', hq, hq'⟩ := hrun _ p front
    rw [hq, hq']
    exact hrun _ _ _

lemma foldl_addPieces_append (es : List DataEntry) (p : Blind.Piece) (front base : List Blind.Piece) :
    es.foldl (addPieces crc) (p :: front ++ base) = es.foldl (addPieces crc) (p :: front) ++ base := by
  induction es generalizing p front with
  | nil => rfl
  | cons e es ih =>
    obtain ⟨q, front', hq, hq'⟩ := @addPieces_append crc p front base e
    rw [foldl_cons, foldl_cons, hq, hq', ih]

lemma iovecsOf_value (crc : Crc) (before after : List DataEntry) {e : DataEntry}
    (he : kInlineValueBytes < e.value.length) : ∃ left right, iovecsOf crc (before ++ e :: after) = left ++ e.value :: right ∧
      left.flatten = serializeAll crc before ++ (e.header ++ e.key) ∧
      right.flatten = e.crcBytes crc ++ serializeAll crc after := by
  have hout : inlineBytes e ≠ e.size := by
    have hsize : e.value.length ≤ e.size := by
      simp only [DataEntry.size, entrySize]
      omega
    rw [inlineBytes, if_neg (not_le.2 he)]
    omega
  have hadd : ∀ ps, addPieces crc ps e = [.run (e.crcBytes crc)] ++
      (.ext e.value :: runToEnd (e.header ++ e.key) ps) := by
    intro ps
    rw [addPieces, if_neg hout]
    rfl
  refine ⟨((runToEnd (e.header ++ e.key) (before.foldl (addPieces crc) [])).reverse.map Blind.Piece.bytes),
    (after.foldl (addPieces crc) [.run (e.crcBytes crc)]).reverse.map Blind.Piece.bytes, ?_, ?_, ?_⟩
  · rw [iovecsOf, foldl_append, foldl_cons, hadd]
    rw [foldl_addPieces_append, reverse_append, map_append, reverse_cons, map_append, append_assoc]
    rfl
  · rw [Blind.bytes_runToEnd, Blind.bytes_foldl_addPieces]
    rfl
  · rw [Blind.bytes_foldl_addPieces]
    rfl

lemma getElem?_offsetsFrom (start : ℕ) (es : List DataEntry) {i : ℕ} (hi : i < es.length) :
    (offsetsFrom start es)[i]? = some (start + bytesOf (es.take i)) := by
  induction es generalizing start i with
  | nil => cases hi
  | cons e es ih =>
    cases i with
    | zero => rfl
    | succ i =>
      have hrest := ih (start + e.size) (Nat.lt_of_succ_lt_succ hi)
      rw [take_succ_cons, bytesOf_cons, ← Nat.add_assoc, ← hrest]
      rfl

end Append

/-- Whatever the limits, an append is the records one after the other at the old logical end, in calls of whole entries, as a
head takes it to be; one that fails leaves the logical end after the last chunk that was written. -/
theorem append_in_chunks (crc : Crc) (lim : WritevLimits) {f : WritableFile} (hf : f.Sound) (es : List DataEntry) :
    ((chunksOf lim es.length es).flatten = es ∧ ∀ chunk ∈ chunksOf lim es.length es, chunk ≠ [] ∧
      (iovecsOf crc chunk).flatten = serializeAll crc chunk ∧
      ∀ before e after, chunk = before ++ e :: after → kInlineValueBytes < e.value.length →
        ∃ left right, iovecsOf crc chunk = left ++ e.value :: right ∧
          left.flatten = serializeAll crc before ++ (e.header ++ e.key) ∧
          right.flatten = e.crcBytes crc ++ serializeAll crc after) ∧
    (appendEntries crc lim es).wp
      (fun offsets f' => Holds crc f es f' ∧ offsets.length = es.length ∧
        (∀ i < es.length, offsets[i]? = some (f.logicalEnd + bytesOf (es.take i))) ∧
        (f'.bytes.take f'.logicalEnd, offsets) = Blind.appendEntries crc lim es (f.bytes.take f.logicalEnd) ∧
        f'.calls = f.calls ++ callsFrom crc f.logicalEnd (chunksOf lim es.length es))
      (fun _ f' => ¬ (f.Smooth ∧ ∀ e ∈ es, Narrow e) ∧
        ∃ done chunk rest, chunksOf lim es.length es = done ++ chunk :: rest ∧ Holds crc f done.flatten f' ∧
          f.calls ++ callsFrom crc f.logicalEnd done <+: f'.calls) f := by
  obtain ⟨hflat, hne⟩ := @chunksOf_spec lim _ es le_rfl
  refine ⟨⟨hflat, fun chunk hc => ⟨hne chunk hc, Blind.chunkBytes_eq chunk, ?_⟩⟩, ?_⟩
  · rintro before e after rfl he
    exact iovecsOf_value crc before after he
  · have hrun := @writeChunks_spec crc f hf (chunksOf lim es.length es)
    rw [hflat] at hrun
    rw [appendEntries, wp_bind]
    refine wp_mono hrun ?_ fun _ _ herr => herr
    rintro offsets f' ⟨hoff, hholds, hcalls⟩
    rw [wp_pure, hoff]
    refine ⟨hholds, ?_, fun i hi => getElem?_offsetsFrom _ _ hi, ?_, hcalls⟩
    · rw [offsetsFrom, length_map, ← length_map, located_map_fst]
    · rw [Blind.appendEntries_eq, hholds.bytes, length_take_of_le hf.within]

def preallocated : WritableFile := { bytes := [7, 0, 0], logicalEnd := 1, zeroedEnd := 3, capacity := 40 }

def twoPuts : List DataEntry := [⟨1, .put, [1], [5, 6]⟩, ⟨2, .put, [2], []⟩]

theorem twoPuts_in_chunks : (chunksOf ⟨1, 100, 100, by decide⟩ 2 twoPuts).map List.length = [1, 1] ∧
    (appendEntries (fun _ => 0) ⟨1, 100, 100, by decide⟩ twoPuts).wp
      (fun offsets f' => offsets = [1, 23] ∧ f'.logicalEnd = 43 ∧ f'.zeroedEnd = 43 ∧
        f'.bytes.take 43 = [7] ++ serializeAll (fun _ => 0) twoPuts)
      (fun _ _ => False) preallocated := by
  have hspec := (append_in_chunks (fun _ => 0) ⟨1, 100, 100, by decide⟩ (f := preallocated) ⟨by decide, by decide⟩ twoPuts).2
  have hrun : (appendEntries (fun _ => 0) ⟨1, 100, 100, by decide⟩ twoPuts).wp (fun offsets f' => offsets = [1, 23] ∧
      f'.logicalEnd = 43 ∧ f'.zeroedEnd = 43) (fun _ _ => False) preallocated := by decide +kernel
  refine ⟨by decide, wp_mono (wp_and hspec hrun) ?_ fun _ _ h => h.2⟩
  rintro offsets f' ⟨⟨hholds, -⟩, hoff, hend, hzero⟩
  refine ⟨hoff, hend, hzero, ?_⟩
  rw [← hend]
  exact hholds.bytes

end Bytecask.Writev
