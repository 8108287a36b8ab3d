import Bytecask.Runs

/-! The file ids an ingestion sets aside before it writes are those its rotations take. -/

namespace Bytecask

open List EStateM EngineState

def ingestChunks (cfg : Config) : (fuel : ℕ) → List DataEntry → (size : ℕ) → List (List DataEntry × Bool)
  | 0, _, _ => []
  | n + 1, rest, size =>
    if rest = [] then []
    else
      let chunk := ingestChunk cfg rest size
      (rest.take chunk.stop, chunk.needsRotation) ::
        ingestChunks cfg n (rest.drop chunk.stop) (if chunk.needsRotation then 0 else chunk.endSize)

def sizeAfter (size : ℕ) (chunks : List (List DataEntry × Bool)) : ℕ :=
  chunks.foldl (fun size c => if c.2 then 0 else size + bytesOf c.1) size

section Chunks

variable {lone : Bool} {cfg : Config} {es : List DataEntry}

lemma ingestChunks_flatten (cfg : Config) (n : ℕ) {es : List DataEntry} (hn : es.length ≤ n) (size : ℕ) :
    ((ingestChunks cfg n es size).map Prod.fst).flatten = es := by
  induction n generalizing es size with
  | zero => exact (length_eq_zero_iff.1 (Nat.le_zero.1 hn)).symm
  | succ n ih =>
    rw [ingestChunks]
    split_ifs with hnil
    · exact hnil.symm
    · obtain ⟨hpos, -⟩ := ingestChunk_spec cfg hnil size
      rw [map_cons, flatten_cons, ih, take_append_drop]
      rw [length_drop]
      omega

lemma ingestChunks_whole (cfg : Config) (n : ℕ) (h : Whole lone false es) (size : ℕ) :
    ∀ c ∈ ingestChunks cfg n es size, Whole lone false c.1 := by
  induction n generalizing es size with
  | zero => nofun
  | succ n ih =>
    intro c hc
    rw [ingestChunks] at hc
    split_ifs at hc with hnil
    · cases hc
    · obtain ⟨htake, hdrop⟩ := (ingestChunk_spec cfg hnil size).2.2.2 lone h
      rcases mem_cons.1 hc with rfl | hc
      · exact htake
      · exact ih hdrop _ c hc

lemma countRotations_eq (cfg : Config) (n : ℕ) {es : List DataEntry} (hn : es.length ≤ n) (size : ℕ) :
    countRotations cfg (n + 1) es size = (ingestChunks cfg n es size).countP Prod.snd +
      if cfg.rotationThreshold ≤ sizeAfter size (ingestChunks cfg n es size) then 1 else 0 := by
  induction n generalizing es size with
  | zero =>
    have hnil : es = [] := length_eq_zero_iff.1 (Nat.le_zero.1 hn)
    rw [countRotations, if_pos hnil, ingestChunks, countP_nil, Nat.zero_add]
    rfl
  | succ n ih =>
    rw [countRotations, ingestChunks]
    by_cases hnil : es = []
    · rw [if_pos hnil, if_pos hnil, countP_nil, Nat.zero_add]
      rfl
    · obtain ⟨hpos, -, hend, -⟩ := ingestChunk_spec cfg hnil size
      have hlen : (es.drop (ingestChunk cfg es size).stop).length ≤ n := by
        rw [length_drop]
        omega
      rw [if_neg hnil, if_neg hnil, countP_cons, sizeAfter, foldl_cons]
      cases hrot : (ingestChunk cfg es size).needsRotation with
      | true =>
        simp only [if_true, hrot]
        rw [ih hlen, sizeAfter]
        omega
      | false =>
        simp only [Bool.false_eq_true, if_false, hrot, Nat.add_zero]
        rw [ih hlen, sizeAfter, hend]

lemma countRotations_le (cfg : Config) (n : ℕ) {es : List DataEntry} (hn : es.length ≤ n) (size : ℕ) :
    countRotations cfg (n + 1) es size ≤ es.length + 1 := by
  induction n generalizing es size with
  | zero =>
    rw [countRotations, if_pos (length_eq_zero_iff.1 (Nat.le_zero.1 hn))]
    split_ifs <;> omega
  | succ n ih =>
    rw [countRotations]
    by_cases hnil : es = []
    · rw [if_pos hnil]
      split_ifs <;> omega
    · obtain ⟨hpos, -⟩ := ingestChunk_spec cfg hnil size
      have hlen : (es.drop (ingestChunk cfg es size).stop).length < es.length := by
        rw [length_drop]
        have := length_pos_iff.2 hnil
        omega
      have hrest := @ih (es.drop (ingestChunk cfg es size).stop) (by omega)
      dsimp only
      split_ifs
      · have := hrest 0
        omega
      · exact (hrest _).trans (by omega)

end Chunks

namespace Db

def writeChunk (current : EngineState) (c : List DataEntry × Bool) : Op Unit := do
  let db ← get
  let file := db.t.activePath
  let size := db.disk.size file
  modifyT (fun t => t.applyIngest c.1 (offsetsFrom size c.1))
  onError (appendEntries file c.1) (do
    attempt (sync file)
    degradeFrom current)
  if c.2 then ingestRotate current

structure Room (db : Db) (size : ℕ) : Prop where
  file : (db.disk.files.get db.t.activePath).isSome
  size : db.disk.size db.t.activePath = size

inductive IoError : DbError → Prop
  | stopped : IoError .stopped
  | io : IoError .io

def Fails (t : EngineState) (e : DbError) : Prop := IoError e ∨ e = .fileIdsExhausted ∧ t.fileIdsLeft = 0

lemma ioError_of_fault (f : Fault) : IoError (if f.stops then .stopped else .io) := by
  split_ifs
  · exact .stopped
  · exact .io

section Fields

variable (s : EngineState) (size : ℕ) (es : List DataEntry)

lemma applyIngest_place : (s.applyIngest es (offsetsFrom size es)).files = s.files ∧
    (s.applyIngest es (offsetsFrom size es)).activeFileId = s.activeFileId ∧
    (s.applyIngest es (offsetsFrom size es)).nextFileId = s.nextFileId := by
  cases es with
  | nil => exact ⟨rfl, rfl, rfl⟩
  | cons e es =>
    have hrest := s.applyEntries_rest (located size (e :: es))
    have hfiles := congrArg EngineState.files hrest
    have hactive := congrArg activeFileId hrest
    have hnext := congrArg nextFileId hrest
    rw [applyIngest_eq]
    exact ⟨hfiles, hactive, hnext⟩

lemma applyIngest_activePath : (s.applyIngest es (offsetsFrom size es)).activePath = s.activePath := by
  obtain ⟨hfiles, hactive, -⟩ := applyIngest_place s size es
  rw [activePath, hfiles, hactive]
  rfl

lemma fileIdsLeft_eq : s.fileIdsLeft = maxFileId + 1 - s.nextFileId := by
  have hleft : ∀ m n : ℕ, (if m < n then 0 else m - n + 1) = m + 1 - n := by
    intro m n
    split_ifs <;> omega
  exact hleft _ _

end Fields

section Writes

variable {E : DbError → Db → Prop} {db : Db} {size : ℕ} {current : EngineState} {c : List DataEntry × Bool}
variable {Q : Unit → Db → Prop} (cfg : Config)

lemma Room.created (db : Db) (fs : List (Option Fault)) :
    Room { db with disk := (db.disk.shrink db.t.activePath).create, t := rotated db.disk db.t, faults := fs } 0 := by
  have hget : ((db.disk.shrink db.t.activePath).create.files.get db.disk.nextPath) = some {} :=
    (SortedMap.get_insert _ _ _ _).trans (if_pos rfl)
  constructor
  · simp only [rotated_activePath, hget, Option.isSome_some]
  · simp only [rotated_activePath, Disk.size, hget]
    rfl

lemma wp_rotation_room (hok : db.t.fileIdsLeft ≠ 0 → ∀ db', Room db' 0 → db'.t.nextFileId = db.t.nextFileId + 1 → Q () db') :
    (rotation (degradeFrom current)).wp Q (fun e _ => Fails db.t e) db := by
  have hfail : ∀ {e : DbError} {db' : Db}, Fails db.t e → if e = .stopped then Fails db.t e
      else (degradeFrom current).wp (fun _ _ => Fails db.t e) (fun e _ => Fails db.t e) db' := by
    intro e db' he
    split_ifs
    · exact he
    · exact he
  simp only [rotation, wp_onError, wp_bind, finishRotation, wp_modifyT, prepareRotation, shrinkToFit,
    openDataFileForRead, reserveFileId, createActiveFile, wp_get]
  refine wp_io (fun fs => ?_) (fun f fs => hfail (.inl (ioError_of_fault f)))
  refine wp_io (fun fs => ?_) (fun f fs => hfail (.inl (ioError_of_fault f)))
  simp only [id_eq, wp_ite, wp_throw, wp_bind, wp_modifyT, wp_pure]
  refine ⟨fun hids => hfail (.inr ⟨rfl, hids⟩), fun hids => ?_⟩
  refine wp_io (fun fs => ?_) (fun f fs => hfail (.inl (ioError_of_fault f)))
  exact hok hids _ (Room.created db fs) rfl

lemma wp_syncIngested_room {E : DbError → Db → Prop} (hroom : Room db size)
    (hok : ∀ db', Room db' size → db'.t.nextFileId = db.t.nextFileId → Q () db') (hE : ∀ e db', IoError e → E e db') :
    (syncIngested current).wp Q E db := by
  simp only [syncIngested, wp_bind, wp_get, wp_onError, wp_modifyT]
  refine wp_sync (fun fs => hok _ ⟨?_, ?_⟩ rfl) fun f fs => ?_
  · have hget := db.disk.get_adjust db.t.activePath db.t.activePath (fun f => { f with durable := f.entries.length })
    rw [if_pos rfl] at hget
    change ((db.disk.adjust _ _).files.get db.t.activePath).isSome
    rw [hget, Option.isSome_map]
    exact hroom.file
  · rw [← hroom.size]
    change (db.disk.sync _).size db.t.activePath = _
    simp only [Disk.size, Disk.sync, Disk.get_adjust, if_pos, Option.map_map, Function.comp_def]
  · have hio := ioError_of_fault f
    generalize (if f.stops = true then DbError.stopped else DbError.io) = e at hio ⊢
    split_ifs
    · exact hE _ _ hio
    · exact hE _ _ hio

lemma wp_ingestRotate_room (hroom : Room db size)
    (hok : db.t.fileIdsLeft ≠ 0 → ∀ db', Room db' 0 → db'.t.nextFileId = db.t.nextFileId + 1 → Q () db') :
    (ingestRotate current).wp Q (fun e _ => Fails db.t e) db := by
  simp only [ingestRotate, wp_bind]
  refine wp_syncIngested_room hroom (fun db₁ hroom₁ hnext => ?_) (fun e _ he => .inl he)
  have hleft : db₁.t.fileIdsLeft = db.t.fileIdsLeft := by rw [fileIdsLeft_eq, fileIdsLeft_eq, hnext]
  refine wp_mono (wp_rotation_room (Q := Q) fun hids db' hr hn => hok (hleft ▸ hids) db' hr (hnext ▸ hn))
    (fun _ _ hq => hq) (fun e _ he => ?_)
  rw [Fails, ← hleft]
  exact he

lemma writeChunk_spec (hroom : Room db size) (hc : c.1 ≠ []) :
    (writeChunk current c).wp
      (fun _ db' => Room db' (if c.2 then 0 else size + bytesOf c.1) ∧ db'.t.nextFileId = db.t.nextFileId + c.2.toNat ∧
        (c.2 = true → db.t.fileIdsLeft ≠ 0))
      (fun e _ => IoError e ∨ c.2 = true ∧ Fails db.t e) db := by
  simp only [writeChunk, wp_bind, wp_get, wp_modifyT, wp_onError]
  refine wp_appendEntries hc (fun fs => ?_) (fun f fs => ?_)
  · have hplace := applyIngest_activePath db.t (db.disk.size db.t.activePath) c.1
    obtain ⟨-, -, hids⟩ := applyIngest_place db.t _ c.1
    have hroom' : Room { db with
        disk := db.disk.append db.t.activePath c.1
        t := db.t.applyIngest c.1 (offsetsFrom (db.disk.size db.t.activePath) c.1)
        faults := fs } (size + bytesOf c.1) := by
      constructor
      · simp only [hplace, Disk.append, Disk.get_adjust, if_pos, Option.isSome_map]
        exact hroom.file
      · simp only [hplace]
        rw [Disk.size_append hroom.file, hroom.size]
    cases hrot : c.2 with
    | false =>
      exact ⟨hroom', hids, (by simp)⟩
    | true =>
      simp only [if_true]
      have hleft : (db.t.applyIngest c.1 (offsetsFrom (db.disk.size db.t.activePath) c.1)).fileIdsLeft = db.t.fileIdsLeft := by
        rw [fileIdsLeft_eq, fileIdsLeft_eq, hids]
      refine wp_mono (wp_ingestRotate_room hroom' fun hne db' hr hn => ⟨hr, ?_, fun _ => ?_⟩) (fun _ _ hq => hq)
        (fun e _ he => .inr ⟨trivial, ?_⟩)
      · rw [Fails, ← hleft]
        exact he
      · rw [hn]
        exact congrArg _ hids
      · exact hleft ▸ hne
  · have hio := ioError_of_fault f
    generalize (if f.stops = true then DbError.stopped else DbError.io) = e at hio ⊢
    split_ifs
    · exact .inl hio
    · refine wp_attempt_sync (fun fs => ?_) (fun fs => ?_) (fun fs => ?_)
      · exact .inl hio
      · exact .inl hio
      · exact .inl .stopped

lemma ingestLoop_eq (n : ℕ) {es : List DataEntry} (hroom : Room db size) :
    ingestLoop cfg current n es db = ((ingestChunks cfg n es size).forM (writeChunk current)) db := by
  induction n generalizing db es size with
  | zero => rfl
  | succ n ih =>
    by_cases hnil : es = []
    · rw [ingestLoop, ingestChunks, if_pos hnil, if_pos hnil]
      rfl
    · obtain ⟨hpos, hle, hend, -⟩ := ingestChunk_spec cfg hnil size
      have htake : es.take (ingestChunk cfg es size).stop ≠ [] := by
        rw [Ne, take_eq_nil_iff, not_or]
        exact ⟨hpos.ne', hnil⟩
      have hturn : ingestLoop cfg current (n + 1) es db =
          (writeChunk current (es.take (ingestChunk cfg es size).stop, (ingestChunk cfg es size).needsRotation) >>=
            fun _ => ingestLoop cfg current n (es.drop (ingestChunk cfg es size).stop)) db := by
        have hget : ∀ {α : Type} (f : Db → Op α), (get >>= f) db = f db db := fun _ => rfl
        rw [ingestLoop, if_neg hnil, ← hroom.size]
        simp only [writeChunk, bind_assoc]
        rw [hget, hget]
        cases (ingestChunk cfg es (db.disk.size db.t.activePath)).needsRotation <;> rfl
      have hspec := @writeChunk_spec db size current
        (es.take (ingestChunk cfg es size).stop, (ingestChunk cfg es size).needsRotation) hroom htake
      rw [hturn, ingestChunks, if_neg hnil]
      change _ = (writeChunk current _ >>= fun _ => List.forM _ _) db
      simp only [bind, EStateM.bind]
      rw [EStateM.wp] at hspec
      cases hrun : writeChunk current (es.take (ingestChunk cfg es size).stop, (ingestChunk cfg es size).needsRotation) db with
      | error e db' => rfl
      | ok u db' =>
        rw [hrun] at hspec
        have hroom' := hspec.1
        rw [← hend] at hroom'
        exact ih hroom'

lemma writeChunks_spec (chunks : List (List DataEntry × Bool)) (hne : ∀ c ∈ chunks, c.1 ≠ []) (hroom : Room db size)
    (hids : chunks.countP Prod.snd ≤ db.t.fileIdsLeft) :
    (chunks.forM (writeChunk current)).wp
      (fun _ db' => Room db' (sizeAfter size chunks) ∧ db'.t.nextFileId = db.t.nextFileId + chunks.countP Prod.snd)
      (fun e _ => IoError e) db := by
  induction chunks generalizing db size with
  | nil => exact ⟨hroom, rfl⟩
  | cons c chunks ih =>
    change (writeChunk current c >>= fun _ => chunks.forM (writeChunk current)).wp _ _ db
    rw [wp_bind]
    have hone : (c :: chunks).countP Prod.snd = chunks.countP Prod.snd + c.2.toNat := by
      rw [countP_cons]
      cases c.2 <;> rfl
    rw [hone] at hids ⊢
    refine wp_mono (writeChunk_spec hroom (hne c mem_cons_self)) ?_ ?_
    · rintro - db₁ ⟨hroom₁, hnext, -⟩
      have hleft : chunks.countP Prod.snd ≤ db₁.t.fileIdsLeft := by
        rw [fileIdsLeft_eq] at hids ⊢
        rw [hnext, Nat.sub_add_eq]
        exact Nat.le_sub_of_add_le hids
      refine wp_mono (ih (fun c hc => hne c (mem_cons_of_mem _ hc)) hroom₁ hleft) ?_ (fun _ _ he => he)
      rintro - db₂ ⟨hroom₂, hnext₂⟩
      refine ⟨hroom₂, ?_⟩
      rw [hnext₂, hnext, Nat.add_assoc, Nat.add_comm c.2.toNat]
    · rintro e - (he | ⟨hrot, he | ⟨-, hzero⟩⟩)
      · exact he
      · exact he
      · rw [hzero, hrot] at hids
        simp at hids

lemma ingestChunks_nonempty (n : ℕ) (es : List DataEntry) (size : ℕ) : ∀ c ∈ ingestChunks cfg n es size, c.1 ≠ [] := by
  induction n generalizing es size with
  | zero => nofun
  | succ n ih =>
    intro c hc
    rw [ingestChunks] at hc
    split_ifs at hc with hnil
    · cases hc
    · rcases mem_cons.1 hc with rfl | hc
      · rw [Ne, take_eq_nil_iff, not_or]
        exact ⟨(ingestChunk_spec cfg hnil size).1.ne', hnil⟩
      · exact ih _ _ c hc

lemma wp_published (hroom : Room db size) (hok : ∀ db', Room db' size → db'.t.nextFileId = db.t.nextFileId → Q () db') :
    (do syncIngested current; storeState current (← get).t : Op Unit).wp Q (fun e _ => IoError e) db := by
  simp only [wp_bind, wp_get]
  refine wp_syncIngested_room hroom (fun db₁ hroom₁ hnext => ?_) (fun e _ he => he)
  simp only [storeState, wp_modify]
  split_ifs
  · exact hok _ ⟨hroom₁.file, hroom₁.size⟩ hnext
  · exact hok _ ⟨hroom₁.file, hroom₁.size⟩ hnext

lemma ingestEntries_spec (hroom : Room db size) (es : List DataEntry)
    (hids : countRotations cfg (es.length + 1) es size ≤ db.t.fileIdsLeft) :
    (ingestEntries cfg current es).wp
      (fun _ db' => db'.t.nextFileId = db.t.nextFileId + countRotations cfg (es.length + 1) es size ∧
        (db'.disk.size db'.t.activePath < cfg.rotationThreshold ∨
          cfg.rotationThreshold = 0 ∧ db'.disk.size db'.t.activePath = 0))
      (fun e _ => IoError e) db := by
  rw [countRotations_eq cfg _ le_rfl] at hids ⊢
  have hloop : (ingestLoop cfg current es.length es).wp (fun _ db' =>
      Room db' (sizeAfter size (ingestChunks cfg es.length es size)) ∧
        db'.t.nextFileId = db.t.nextFileId + (ingestChunks cfg es.length es size).countP Prod.snd)
      (fun e _ => IoError e) db := by
    rw [EStateM.wp, ingestLoop_eq cfg _ hroom]
    exact writeChunks_spec _ (ingestChunks_nonempty cfg _ _ _) hroom ((Nat.le_add_right _ _).trans hids)
  simp only [ingestEntries, wp_bind (ingestLoop _ _ _ _)]
  refine wp_mono hloop ?_ (fun _ _ he => he)
  rintro - db₁ ⟨hroom₁, hnext₁⟩
  rw [wp_bind, wp_get, hroom₁.size]
  by_cases hfull : cfg.rotationThreshold ≤ sizeAfter size (ingestChunks cfg es.length es size)
  · rw [if_pos hfull] at hids ⊢
    rw [if_pos hfull, wp_bind]
    have hleft : db₁.t.fileIdsLeft ≠ 0 := by
      rw [fileIdsLeft_eq] at hids ⊢
      rw [hnext₁, Nat.sub_add_eq]
      exact (Nat.lt_sub_of_add_lt (by rwa [Nat.add_comm])).ne'
    refine wp_mono (wp_ingestRotate_room hroom₁ fun _ db₂ hroom₂ hnext₂ => wp_published hroom₂ fun db₃ hroom₃ hnext₃ => ?_)
      (fun _ _ hq => hq) (fun e _ he => ?_)
    · rw [hroom₃.size]
      exact ⟨by rw [hnext₃, hnext₂, hnext₁, Nat.add_assoc], (Nat.eq_zero_or_pos _).symm.imp_right fun h => ⟨h, rfl⟩⟩
    · rcases he with he | ⟨-, hzero⟩
      · exact he
      · exact absurd hzero hleft
  · rw [if_neg hfull, if_neg hfull]
    refine wp_published hroom₁ fun db₂ hroom₂ hnext₂ => ?_
    rw [hroom₂.size]
    exact ⟨hnext₂.trans hnext₁, .inl (not_le.1 hfull)⟩

end Writes

/-- The rotations counted before a slice is written are those its chunks and the file's end then make: with an id for each,
nothing but I/O stops it, and it leaves the active file below the threshold. There is at most one more than the slice has
entries, so the 32 bits they are counted in hold them. -/
theorem ingest_reservation_exact {lone : Bool} {slice : List DataEntry} (hw : Whole lone false slice) (cfg : Config) {db : Db}
    (hfile : (db.disk.files.get db.t.activePath).isSome) (current : EngineState) :
    let size := db.disk.size db.t.activePath
    let chunks := ingestChunks cfg slice.length slice size
    (chunks.map Prod.fst).flatten = slice ∧ (∀ c ∈ chunks, Whole lone false c.1) ∧
    ingestLoop cfg current slice.length slice db = (chunks.forM (writeChunk current)) db ∧
    countRotations cfg (slice.length + 1) slice size ≤ slice.length + 1 ∧
    (countRotations cfg (slice.length + 1) slice size ≤ db.t.fileIdsLeft →
      (ingestEntries cfg current slice).wp
        (fun _ db' => db'.t.nextFileId = db.t.nextFileId + countRotations cfg (slice.length + 1) slice size ∧
          (db'.disk.size db'.t.activePath < cfg.rotationThreshold ∨
            cfg.rotationThreshold = 0 ∧ db'.disk.size db'.t.activePath = 0))
        (fun e _ => IoError e) db) := by
  intro size chunks
  have hroom : Room db size := ⟨hfile, rfl⟩
  refine ⟨ingestChunks_flatten cfg _ le_rfl size, ingestChunks_whole cfg _ hw size, ingestLoop_eq cfg _ hroom,
    countRotations_le cfg _ le_rfl size, fun hids => ?_⟩
  exact ingestEntries_spec cfg hroom slice hids

def threeUnits : List DataEntry :=
  [⟨1, .put, [1], [7]⟩, ⟨2, .bulkBegin, [], []⟩, ⟨3, .put, [2], [7]⟩, ⟨4, .put, [3], [7]⟩, ⟨5, .bulkEnd, [], []⟩, ⟨6, .put, [4], [7]⟩]

@[irreducible] def emptyFollower : Db := { Db.opened .follower with t := (Db.opened .follower).published }

lemma threeUnits_count : countRotations { rotationThreshold := 20 } (threeUnits.length + 1) threeUnits
    (emptyFollower.disk.size emptyFollower.t.activePath) = 3 := by decide +kernel

theorem threeUnits_reserved : ∃ db', ingestEntries { rotationThreshold := 20 } emptyFollower.t threeUnits emptyFollower = .ok () db' ∧
    db'.t.nextFileId = emptyFollower.t.nextFileId + 3 ∧
    (db'.disk.size db'.t.activePath < 20 ∨ 20 = 0 ∧ db'.disk.size db'.t.activePath = 0) := by
  have hwhole : Whole false false threeUnits := by simp [threeUnits, Whole, batchAfter]
  have hfile : (emptyFollower.disk.files.get emptyFollower.t.activePath).isSome := by decide +kernel
  have hids : 3 ≤ emptyFollower.t.fileIdsLeft := by decide +kernel
  have hrun := (ingest_reservation_exact hwhole { rotationThreshold := 20 } hfile emptyFollower.t).2.2.2.2
  have hok : (ingestEntries { rotationThreshold := 20 } emptyFollower.t threeUnits).wp (fun _ _ => True) (fun _ _ => False)
      emptyFollower := by decide +kernel
  obtain ⟨u, db', hres, hdone⟩ := ok_of_wp (wp_mono (wp_and (hrun hids) hok) (fun _ _ h => h) (fun _ _ h => h.2))
  exact ⟨db', hres, hdone.1⟩

end Db

end Bytecask
