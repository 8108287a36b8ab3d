import Bytecask.Changes.Served

/-! Where the tables of the change index begin. A scan takes its plan and seeks in two holds of the mutex; as long as no scan
that planned a new table is then sent past the file's first byte, every table begins at the file's first bookmark. -/

namespace Bytecask.Changes

open List Option Scan

variable {L : ChangeLog} {id : FileId} {n N : ℕ}

structure First (L : ChangeLog) (id : FileId) (b : Bookmark) : Prop where
  marks : Marks L id b
  past : bookmarkSpacing ≤ b.offset
  least : ∀ b', Marks L id b' → bookmarkSpacing ≤ b'.offset → b.offset ≤ b'.offset

structure Laid (L : ChangeLog) (n N : ℕ) (id : FileId) (t : Table) : Prop where
  starts : ∃ b ∈ t.bookmarks.head?, First L id b
  spaced : t.bookmarks.IsChain (fun a b => a.offset + t.spacing ≤ b.offset)
  few : t.bookmarks.length < n
  durable : ∀ b ∈ t.bookmarks, b.sequence ≤ N
  generation : t.generation ≠ 0

section Table

variable {t : Table} {b : Bookmark}

lemma everyOther_length {α : Type} (xs : List α) : (everyOther xs).length = (xs.length + 1) / 2 := by
  fun_induction everyOther xs with
  | case1 | case2 => simp
  | case3 x y xs ih =>
    simp only [length_cons, ih]
    omega

lemma everyOther_head? {α : Type} (xs : List α) : (everyOther xs).head? = xs.head? := by
  fun_cases everyOther xs <;> rfl

lemma everyOther_isChain {s : ℕ} : (xs : List Bookmark) → xs.IsChain (fun a b => a.offset + s ≤ b.offset) →
    (everyOther xs).IsChain (fun a b => a.offset + 2 * s ≤ b.offset)
  | [], _ => .nil
  | [x], _ => .singleton x
  | x :: y :: xs, h => by
    obtain ⟨hxy, hy⟩ := isChain_cons_cons.1 h
    obtain ⟨hyz, hxs⟩ := isChain_cons.1 hy
    refine isChain_cons.2 ⟨fun z hz => ?_, everyOther_isChain xs hxs⟩
    rw [everyOther_head?] at hz
    have := hyz z hz
    omega

lemma push_eq (t : Table) (b : Bookmark) :
    t.push n b = t ∨ (∀ x ∈ t.bookmarks.getLast?, x.offset + t.spacing ≤ b.offset) ∧
      (let t' := { t with bookmarks := t.bookmarks ++ [b] }
      t.push n b = t' ∧ t'.bookmarks.length < n ∨ t.push n b = t'.thin) := by
  rw [Table.push]
  split_ifs with hfloor
  · exact .inl rfl
  · refine .inr ⟨fun x hx => ?_, ?_⟩
    · rw [mem_def.1 hx] at hfloor
      exact not_lt.1 hfloor
    · dsimp only
      split_ifs with hlen
      · exact .inr rfl
      · exact .inl ⟨rfl, not_le.1 hlen⟩

lemma Laid.push (hn : 2 ≤ n) (h : Laid L n N id t) (hb : b.sequence ≤ N) : Laid L n N id (t.push n b) := by
  obtain hsame | ⟨hlast, hnew⟩ := @push_eq n t b
  · rw [hsame]
    exact h
  · obtain ⟨first, hfirst, hstarts⟩ := h.starts
    have hspaced : (t.bookmarks ++ [b]).IsChain (fun a b => a.offset + t.spacing ≤ b.offset) := by
      refine isChain_append.2 ⟨h.spaced, .singleton b, fun x hx y hy => ?_⟩
      cases hy
      exact hlast x hx
    have hhead : (t.bookmarks ++ [b]).head? = some first := by
      rw [List.head?_append, mem_def.1 hfirst]
      rfl
    have hdurable : ∀ x ∈ t.bookmarks ++ [b], x.sequence ≤ N := by
      intro x hx
      obtain hx | hx := mem_append.1 hx
      · exact h.durable x hx
      · rw [mem_singleton.1 hx]
        exact hb
    obtain ⟨heq, hlen⟩ | heq := hnew
    · rw [heq]
      exact ⟨⟨first, hhead, hstarts⟩, hspaced, hlen, hdurable, h.generation⟩
    · rw [heq]
      refine ⟨⟨first, (everyOther_head? _).trans hhead, hstarts⟩, everyOther_isChain _ hspaced, ?_,
        fun x hx => hdurable x ((everyOther_sublist _).subset hx), h.generation⟩
      have hfew := h.few
      rw [Table.thin, everyOther_length, length_append, length_singleton]
      omega

lemma Laid.foldl (hn : 2 ≤ n) {bs : List Bookmark} (hbs : ∀ b ∈ bs, b.sequence ≤ N) (h : Laid L n N id t) :
    Laid L n N id (bs.foldl (Table.push n) t) := by
  induction bs generalizing t with
  | nil => exact h
  | cons b bs ih =>
    exact ih (fun x hx => hbs x (mem_cons_of_mem b hx)) (h.push hn (hbs b mem_cons_self))

lemma Laid.used (h : Laid L n N id t) (tick : ℕ) : Laid L n N id { t with used := tick } :=
  ⟨h.starts, h.spaced, h.few, h.durable, h.generation⟩

lemma laid_new (hn : 2 ≤ n) {bs : List Bookmark} (hbs : ∀ b ∈ bs, b.sequence ≤ N) (hb : First L id b) (hhead : b ∈ bs.head?)
    {generation : ℕ} (hg : generation ≠ 0) (tick : ℕ) :
    Laid L n N id (bs.foldl (Table.push n) { used := tick, generation }) := by
  obtain ⟨bs, rfl⟩ : ∃ bs', bs = b :: bs' := ⟨bs.tail, List.eq_cons_of_mem_head? hhead⟩
  have hpush : Table.push n { used := tick, generation } b = { used := tick, generation, bookmarks := [b] } := by
    have hpast : ¬ b.offset < bookmarkSpacing := not_lt.2 hb.past
    have hlen : ¬ n ≤ 1 := by omega
    simp [Table.push, hpast, hlen]
  rw [foldl_cons, hpush]
  refine Laid.foldl hn (fun x hx => hbs x (mem_cons_of_mem b hx)) ⟨⟨b, rfl, hb⟩, .singleton b, hn, ?_, hg⟩
  intro x hx
  rw [mem_singleton.1 hx]
  exact hbs b mem_cons_self

end Table

section Index

variable {ix : ChangeIndex}

structure IndexLaid (L : ChangeLog) (n N : ℕ) (ix : ChangeIndex) : Prop where
  tables : ∀ id t, ix.tables.get id = some t → Laid L n N id t
  maxBookmarks : ix.maxBookmarks = n

lemma IndexLaid.seek (h : IndexLaid L n N ix) (id : FileId) (below : ℕ) : IndexLaid L n N (ix.seek id below).2 := by
  rw [ChangeIndex.seek]
  split
  · exact h
  · next t ht => exact ⟨tables_insert h.tables ((h.tables id t ht).used _), h.maxBookmarks⟩

lemma IndexLaid.forget (h : IndexLaid L n N ix) (id : FileId) : IndexLaid L n N (ix.forget id) :=
  ⟨tables_erase h.tables id, h.maxBookmarks⟩

lemma IndexLaid.evictOldest (h : IndexLaid L n N ix) : IndexLaid L n N ix.evictOldest := by
  rw [ChangeIndex.evictOldest]
  split
  · exact h
  · exact h.forget _

lemma IndexLaid.plan (h : IndexLaid L n N ix) (hg : (ix.plan id).generation = 0) :
    (ix.plan id).nextOffset = bookmarkSpacing := by
  rw [ChangeIndex.plan] at hg ⊢
  split at hg
  · rfl
  · next t ht => exact absurd hg (h.tables id t ht).generation

lemma IndexLaid.extend (hn : 2 ≤ n) (h : IndexLaid L n N ix) {generation : ℕ} {bs : List Bookmark}
    (hbs : ∀ b ∈ bs, b.sequence ≤ N) (hfirst : generation = 0 → ∃ b ∈ bs.head?, First L id b) :
    IndexLaid L n N (ix.extend id generation bs).2 ∧ ∀ p ∈ (ix.extend id generation bs).1, p.generation ≠ 0 := by
  rw [ChangeIndex.extend]
  split
  · exact ⟨h, (by simp)⟩
  · next ix' t ht =>
    have hspec : IndexLaid L n N ix' ∧ ∀ tick, Laid L n N id (bs.foldl (Table.push n) { t with used := tick }) := by
      rw [ChangeIndex.tableFor] at ht
      split at ht
      · by_cases hg : generation ≠ 0
        · rw [if_pos hg] at ht
          cases ht
        obtain ⟨b, hb, hstart⟩ := hfirst (not_not.1 hg)
        split_ifs at ht
        · cases ht
          exact ⟨⟨h.evictOldest.tables, h.evictOldest.maxBookmarks⟩, laid_new hn hbs hstart hb (Nat.succ_ne_zero _)⟩
        · cases ht
          exact ⟨⟨h.tables, h.maxBookmarks⟩, laid_new hn hbs hstart hb (Nat.succ_ne_zero _)⟩
      · next t' hget =>
        split_ifs at ht
        cases ht
        exact ⟨h, fun tick => Laid.foldl hn hbs ((h.tables id t hget).used tick)⟩
    obtain ⟨hix, hlaid⟩ := hspec
    dsimp only
    rw [hix.maxBookmarks]
    have hnew := hlaid (ix'.clock + 1)
    split_ifs
    · exact ⟨⟨tables_erase hix.tables id, rfl⟩, (by simp)⟩
    · refine ⟨⟨tables_insert hix.tables hnew, rfl⟩, fun p hp => ?_⟩
      cases hp
      exact hnew.generation

end Index

section Scan

/-- A scan with `front` of its file behind it: a plan for a new table begins with the file's first bookmark, and has not
passed it. -/
structure Lays (L : ChangeLog) (N : ℕ) (front : List DataEntry) (durable : ℕ) (id : FileId) (plan : BookmarkPlan) (laying : Bool)
    (pending : List Bookmark) : Prop where
  within : durable ≤ N
  named : ∀ b ∈ pending, b.sequence ≤ N
  active : pending ≠ [] → laying = true
  first : laying = true → plan.generation = 0 → ∀ b ∈ pending.head?, First L id b
  ahead : laying = true → plan.generation = 0 → pending = [] → plan.nextOffset = bookmarkSpacing ∧
    ∀ b, Marks L id b → bookmarkSpacing ≤ b.offset → b.sequence ≤ durable → bytesOf front ≤ b.offset

def Scan.Lays (L : ChangeLog) (N : ℕ) (front : List DataEntry) (sc : Scan) : Prop :=
  Changes.Lays L N front sc.durableSequence sc.fileId sc.plan sc.laying sc.pending

variable {ix : ChangeIndex} {sc : Scan} {front : List DataEntry}

lemma Scan.Lays.rewind (h : sc.Lays L N front) : sc.pending = [] → sc.Lays L N [] := fun _ =>
  ⟨h.within, h.named, h.active, h.first, fun hl hg hp => ⟨(h.ahead hl hg hp).1, fun _ _ _ _ => Nat.zero_le _⟩⟩

lemma Scan.handOver_lays (hn : 2 ≤ n) (hix : IndexLaid L n N ix) (h : sc.Lays L N front) :
    (sc.handOver ix).1.Lays L N front ∧ IndexLaid L n N (sc.handOver ix).2 := by
  rw [handOver]
  split_ifs with hnil
  · exact ⟨h, hix⟩
  · have hfirst : sc.plan.generation = 0 → ∃ b ∈ sc.pending.head?, First L sc.fileId b := by
      intro hg
      obtain ⟨b, hb⟩ := isSome_iff_exists.1 (List.isSome_head?.2 hnil)
      exact ⟨b, hb, h.first (h.active hnil) hg b hb⟩
    obtain ⟨hix', hnew⟩ := hix.extend hn h.named hfirst
    split
    · next next ix' heq =>
      rw [heq] at hix' hnew
      exact ⟨⟨h.within, (by simp), fun hne => absurd rfl hne, fun _ hg => absurd hg (hnew next rfl),
        fun _ hg => absurd hg (hnew next rfl)⟩, hix'⟩
    · next ix' heq =>
      rw [heq] at hix'
      exact ⟨⟨h.within, (by simp), fun hne => absurd rfl hne, (by simp), (by simp)⟩, hix'⟩

lemma Scan.Lays.pass {front' : List DataEntry} (h : sc.Lays L N front)
    (hpass : sc.laying = true → sc.plan.generation = 0 → sc.plan.nextOffset = bookmarkSpacing → ∀ b, Marks L sc.fileId b →
      bookmarkSpacing ≤ b.offset → b.sequence ≤ sc.durableSequence → bytesOf front ≤ b.offset → bytesOf front' ≤ b.offset) :
    sc.Lays L N front' := by
  refine ⟨h.within, h.named, h.active, h.first, fun hl hg hp => ?_⟩
  obtain ⟨hplan, hahead⟩ := h.ahead hl hg hp
  exact ⟨hplan, fun b hb hpast hd => hpass hl hg hplan b hb hpast hd (hahead b hb hpast hd)⟩

variable {e : DataEntry} {tail : List DataEntry}

lemma Marks.after (hfront : L.entries id = front ++ e :: tail) {b : Bookmark} (hb : Marks L id b)
    (hle : bytesOf front ≤ b.offset) : bytesOf (front ++ [e]) ≤ b.offset ∨
      b = ⟨e.sequence, bytesOf front⟩ ∧ ∃ us u vs, L.units id = us ++ u :: vs ∧ us.flatten = front := by
  obtain ⟨us, u, vs, x, hunits, hhead, rfl⟩ := hb
  have hu := (L.isUnit id u (by rw [hunits]; simp)).ne_nil
  rw [ChangeLog.entries, hunits, flatten_append, append_eq_append_iff] at hfront
  have hsame : us.flatten = front → (u :: vs).flatten = e :: tail → (⟨x.sequence, bytesOf us.flatten⟩ : Bookmark) =
      ⟨e.sequence, bytesOf front⟩ ∧ ∃ us u vs, L.units id = us ++ u :: vs ∧ us.flatten = front := by
    intro hus hrest
    obtain ⟨y, u, rfl⟩ := exists_cons_of_ne_nil hu
    cases hhead
    rw [(List.cons.inj hrest).1, hus]
    exact ⟨rfl, us, _, vs, hunits, hus⟩
  obtain ⟨more, hf, hrest⟩ | ⟨more, hus, hrest⟩ := hfront
  · cases more with
    | nil => exact .inr (hsame (by simpa using hf.symm) hrest)
    | cons y more =>
      have hpos := y.size_pos
      rw [hf, bytesOf_append, bytesOf_cons] at hle
      dsimp only at hle
      omega
  · cases more with
    | nil => exact .inr (hsame (by simpa using hus) hrest.symm)
    | cons y more =>
      obtain ⟨rfl, -⟩ := List.cons.inj hrest
      left
      show bytesOf (front ++ [e]) ≤ bytesOf us.flatten
      rw [hus, bytesOf_append, bytesOf_append, bytesOf_cons, bytesOf_cons, bytesOf_nil]
      omega

lemma Position.not_boundary {es : List (DataEntry × ℕ)} (h : Position L id es true)
    (hfront : L.entries id = front ++ es.map Prod.fst) {us vs : List (List DataEntry)} {u : List DataEntry}
    (hunits : L.units id = us ++ u :: vs) : us.flatten ≠ front := by
  rintro rfl
  cases h with
  | @inside us' vs' before after hunits' hb ha =>
    have hlen := congrArg List.length hfront
    rw [ChangeLog.entries, hunits', located_map_fst] at hlen
    simp only [flatten_append, flatten_cons, length_append] at hlen
    have hb' := length_pos_iff.2 hb
    have ha' := length_pos_iff.2 ha
    obtain ⟨ws, rfl⟩ | ⟨ws, rfl⟩ := prefix_or_prefix_of_prefix (⟨_, hunits.symm⟩ : us <+: L.units id) ⟨_, hunits'.symm⟩
    · simp only [flatten_append, length_append] at hlen
      omega
    · cases ws with
      | nil =>
        simp only [append_nil] at hlen
        omega
      | cons w ws =>
        rw [hunits, append_assoc, append_cancel_left_eq, cons_append] at hunits'
        obtain ⟨rfl, -⟩ := List.cons.inj hunits'
        simp only [flatten_append, flatten_cons, length_append] at hlen
        omega

lemma Scan.layBookmark_lays (hn : 2 ≤ n) (hix : IndexLaid L n N ix) (h : sc.Lays L N front)
    (hm : Marks L sc.fileId ⟨e.sequence, bytesOf front⟩) (hd : e.sequence ≤ sc.durableSequence)
    (hfront : L.entries sc.fileId = front ++ e :: tail) :
    (sc.layBookmark e.sequence (bytesOf front) ix).1.Lays L N (front ++ [e]) ∧
      IndexLaid L n N (sc.layBookmark e.sequence (bytesOf front) ix).2 := by
  rw [layBookmark]
  by_cases hl : sc.laying = true
  · rw [if_neg (by simp [hl])]
    by_cases hoffset : bytesOf front < sc.plan.nextOffset
    · rw [if_pos hoffset]
      refine ⟨h.pass fun _ _ hplan b hb hpast _ hle => ?_, hix⟩
      obtain hafter | ⟨rfl, -⟩ := Marks.after hfront hb hle
      · exact hafter
      · dsimp only at hpast
        omega
    · rw [if_neg hoffset]
      dsimp only
      have hfirst : sc.plan.generation = 0 →
          ∀ b ∈ (sc.pending ++ [(⟨e.sequence, bytesOf front⟩ : Bookmark)]).head?, First L sc.fileId b := by
        intro hg b hb
        cases hp : sc.pending with
        | cons x pending =>
          rw [hp] at hb
          exact h.first hl hg b (by rw [hp]; exact hb)
        | nil =>
          rw [hp] at hb
          cases hb
          obtain ⟨hplan, hahead⟩ := h.ahead hl hg hp
          refine ⟨hm, by dsimp only; omega, fun b' hb' hpast => ?_⟩
          by_cases hb'd : b'.sequence ≤ sc.durableSequence
          · exact hahead b' hb' hpast hb'd
          · by_contra hlt
            have := marks_ascending hb' hm (not_le.1 hlt)
            dsimp only at this
            omega
      have hnamed : ∀ b ∈ sc.pending ++ [(⟨e.sequence, bytesOf front⟩ : Bookmark)], b.sequence ≤ N := by
        intro b hb
        obtain hb | hb := mem_append.1 hb
        · exact h.named b hb
        · rw [mem_singleton.1 hb]
          exact hd.trans h.within
      have hlaid : Lays L N (front ++ [e]) { sc with
          pending := sc.pending ++ [⟨e.sequence, bytesOf front⟩]
          plan := { sc.plan with nextOffset := bytesOf front + sc.plan.spacing } } :=
        ⟨h.within, hnamed, fun _ => hl, fun _ => hfirst, fun _ _ hnil => absurd hnil (by simp)⟩
      split_ifs
      · exact handOver_lays hn hix hlaid
      · exact ⟨hlaid, hix⟩
  · rw [if_pos (by simpa using hl)]
    exact ⟨h.pass fun hl' => absurd hl' hl, hix⟩

lemma Position.offset_eq {offset : ℕ} {rest : List (DataEntry × ℕ)} {inBatch : Bool}
    (h : Position L id ((e, offset) :: rest) inBatch) (hfront : L.entries id = front ++ e :: rest.map Prod.fst) :
    offset = bytesOf front := by
  have hcut : ∀ {start : ℕ} {before es : List DataEntry}, (e, offset) :: rest = located start es →
      L.entries id = before ++ es → start = bytesOf before → offset = bytesOf front := by
    intro start before es hes hentries hstart
    cases es with
    | nil => cases hes
    | cons x es =>
      obtain ⟨hx, rfl⟩ := List.cons.inj hes
      cases hx
      rw [hentries, located_map_fst, append_cancel_right_eq] at hfront
      rw [hstart, hfront]
  generalize hes : (e, offset) :: rest = es at h
  cases h with
  | @between us vs hunits =>
    refine hcut hes ?_ rfl
    rw [ChangeLog.entries, hunits, flatten_append]
  | @inside us vs before after hunits hb ha =>
    refine @hcut _ (us.flatten ++ before) _ hes ?_ (by simp)
    rw [ChangeLog.entries, hunits]
    simp

lemma Scan.startUnit_lays (hn : 2 ≤ n) (hix : IndexLaid L n N ix) (h : sc.Lays L N front) {offset : ℕ}
    {rest : List (DataEntry × ℕ)} (hpos : Position L sc.fileId ((e, offset) :: rest) sc.inBatch)
    (hfront : L.entries sc.fileId = front ++ e :: rest.map Prod.fst) :
    (sc.startUnit e offset ix).1.Lays L N (front ++ [e]) ∧ IndexLaid L n N (sc.startUnit e offset ix).2 := by
  have hoffset := hpos.offset_eq hfront
  subst hoffset
  rw [startUnit]
  by_cases hin : sc.inBatch = true
  · rw [if_pos hin]
    refine ⟨h.pass fun _ _ _ b hb _ _ hle => ?_, hix⟩
    obtain hafter | ⟨-, us, u, vs, hunits, hus⟩ := Marks.after hfront hb hle
    · exact hafter
    · exact absurd hus (Position.not_boundary (hin ▸ hpos) hfront hunits)
  · rw [if_neg hin]
    have hm := hpos.read.2 (by simpa using hin)
    dsimp only
    split_ifs with hd
    · have h' : Lays L N front { sc with included := decide (sc.fromSequence < e.sequence) } := h
      exact layBookmark_lays hn hix h' hm hd hfront
    · refine ⟨h.pass fun _ _ _ b hb _ hbd hle => ?_, hix⟩
      obtain hafter | ⟨rfl, -⟩ := Marks.after hfront hb hle
      · exact hafter
      · exact absurd hbd hd

lemma Scan.readEntry_lays (hn : 2 ≤ n) (hix : IndexLaid L n N ix) (h : sc.Lays L N front) {offset : ℕ}
    {rest : List (DataEntry × ℕ)} (hpos : Position L sc.fileId ((e, offset) :: rest) sc.inBatch)
    (hfront : L.entries sc.fileId = front ++ e :: rest.map Prod.fst) :
    (sc.readEntry e offset rest ix).1.Lays L N (front ++ [e]) ∧ IndexLaid L n N (sc.readEntry e offset rest ix).2 := by
  obtain ⟨hlays, hix'⟩ := startUnit_lays hn hix h hpos hfront
  rw [readEntry]
  generalize sc.startUnit e offset ix = r at hlays hix'
  dsimp only [finish, give]
  split_ifs
  · exact ⟨hlays, hix'⟩
  · exact handOver_lays hn hix' hlays
  · exact handOver_lays hn hix' hlays
  · exact ⟨hlays, hix'⟩

structure Scan.Keeps (L : ChangeLog) (N : ℕ) (sc : Scan) : Prop where
  settled : sc.phase = .seeking ∨ sc.phase = .forgetting ∨ sc.phase = .replanning → sc.pending = []
  stands : ∃ front, (sc.phase = .scanning → L.entries sc.fileId = front ++ sc.entries.map Prod.fst) ∧
    (sc.phase = .paused → L.entries sc.fileId = front ++ sc.entries.tail.map Prod.fst) ∧ sc.Lays L N front

variable {crc : Crc}

lemma Scan.enter_keeps {us vs : List (List DataEntry)} (hunits : L.units sc.fileId = us ++ vs) (h : sc.Lays L N us.flatten) :
    (sc.enter crc (L.bytes crc) (bytesOf us.flatten)).Keeps L N := by
  refine ⟨by simp [enter], us.flatten, fun _ => ?_, by simp [enter], h⟩
  have hscan : scanFrom crc (L.bytes crc sc.fileId) (bytesOf us.flatten) = _ := scanFrom_between hunits
  rw [enter, hscan, located_map_fst, ChangeLog.entries, hunits, flatten_append]

lemma Scan.enter_front (h : sc.Lays L N []) : (sc.enter crc (L.bytes crc) 0).Keeps L N :=
  @enter_keeps L N sc crc [] _ rfl h

lemma Scan.planned (hix : IndexLaid L n N ix) (hd : sc.durableSequence ≤ N) (hp : sc.pending = []) (id : FileId) (laying : Bool) :
    Changes.Lays L N [] sc.durableSequence id (ix.plan id) laying sc.pending := by
  rw [hp]
  exact ⟨hd, nofun, fun h => absurd rfl h, fun _ _ => nofun, fun _ hg _ => ⟨hix.plan hg, fun _ _ _ _ => Nat.zero_le _⟩⟩

lemma Scan.proceed_keeps (hn : 2 ≤ n) (hix : IndexLaid L n N ix) (hs : ix.Sound (Marks L)) (hplaced : sc.Placed L)
    (hintact : sc.damaged = false) (hp : ∀ b ∈ sc.pending, Marks L sc.fileId b)
    (hopening : ∀ minSequence id, sc.phase = .opening minSequence id → sc.pending = []) (h : sc.Keeps L N) (hcareful : sc.phase = .seeking → sc.plan.generation = 0 → (ix.seek sc.fileId sc.fromSequence).1 = none) :
    (sc.proceed crc (L.bytes crc) ix).1.Keeps L N ∧ IndexLaid L n N (sc.proceed crc (L.bytes crc) ix).2 := by
  obtain ⟨hset, front, hscanning, hpaused, hlays⟩ := h
  rw [Scan.proceed]
  split
  · next hphase =>
    simp only [Placed, hphase] at hplaced
    split
    · next e offset rest hes =>
      have hfront := hscanning hphase
      rw [hes] at hplaced hfront
      obtain ⟨hl, hix'⟩ := readEntry_lays hn hix hlays hplaced.2.2 hfront
      have hmarked : Marked L sc.fileId (sc, ix) := ⟨hp, hs⟩
      obtain ⟨⟨sc', hread, plan, laying, pending, hsc⟩, -⟩ := readEntry_spec hmarked rest hplaced.2.2.read.2
      refine ⟨⟨?_, front ++ [e], ?_, ?_, hl⟩, hix'⟩
      all_goals
        cases hread <;> simp_all [look]
    · next hes =>
      rw [if_neg (by rw [hintact]; simp), nextFile]
      split
      · have hlays' : Lays L N front { sc with phase := .ended } := hlays
        obtain ⟨hl, hix'⟩ := handOver_lays hn hix hlays'
        refine ⟨⟨fun _ => handOver_pending _, front, ?_, ?_, hl⟩, hix'⟩
        all_goals
          obtain ⟨plan, laying, pending, hsc⟩ := @handOver_sameWalk ix { sc with phase := .ended }
          rw [hsc]
          simp
      · obtain ⟨hl, hix'⟩ := handOver_lays hn hix hlays
        exact ⟨⟨fun _ => handOver_pending _, front, by simp, by simp, hl⟩, hix'⟩
  · next minSequence id hphase =>
    simp only [Placed, hphase] at hplaced
    have hnil := hopening _ id hphase
    have hplan := planned (L := L) hix hlays.within hnil id true
    rw [openFile, if_pos hplaced.2.2.2]
    dsimp only
    split_ifs
    · exact ⟨⟨fun _ => hnil, [], by simp, by simp, hplan⟩, hix⟩
    · exact ⟨enter_front hplan, hix⟩
  · next hphase =>
    have hnil := hset (.inl hphase)
    have hix' := hix.seek sc.fileId sc.fromSequence
    rw [Scan.seek]
    split
    · next ix' hseek =>
      rw [hseek] at hix'
      exact ⟨enter_front (hlays.rewind hnil), hix'⟩
    · next b ix' hseek =>
      have hgen : sc.plan.generation ≠ 0 := by
        intro hg
        have hnone := hcareful hphase hg
        rw [hseek] at hnone
        cases hnone
      obtain ⟨⟨us, u, vs, e, hunits, -, rfl⟩, -⟩ := ChangeIndex.seek_spec hs (congrArg _ hseek)
      rw [hseek] at hix'
      split_ifs
      · exact ⟨enter_keeps hunits (hlays.pass fun _ hg => absurd hg hgen), hix'⟩
      · exact ⟨⟨fun _ => hnil, front, by simp, by simp, hlays⟩, hix'⟩
  · next hphase => exact ⟨⟨fun _ => hset (.inr (.inl hphase)), front, by simp, by simp, hlays⟩, hix.forget sc.fileId⟩
  · next hphase =>
    have hnil := hset (.inr (.inr hphase))
    have hplan : Lays L N [] { sc with plan := ix.plan sc.fileId } := planned hix hlays.within hnil _ _
    exact ⟨enter_front hplan, hix⟩
  all_goals exact ⟨⟨hset, front, hscanning, hpaused, hlays⟩, hix⟩

lemma Scan.step_keeps (hn : 2 ≤ n) (hix : IndexLaid L n N ix) (hs : ix.Sound (Marks L)) (hsc : sc.Sound L) (h : sc.Keeps L N)
    (hcareful : sc.phase = .seeking → sc.plan.generation = 0 → (ix.seek sc.fileId sc.fromSequence).1 = none) :
    (sc.step crc (L.bytes crc) ix).1.Keeps L N ∧ IndexLaid L n N (sc.step crc (L.bytes crc) ix).2 := by
  have hcount : Keeps L N { sc with steps := sc.steps + 1 } := ⟨h.settled, h.stands⟩
  exact proceed_keeps hn hix hs hsc.walks.placed hsc.walks.intact hsc.pending hsc.settled hcount hcareful

lemma Scan.Keeps.advance (h : sc.Keeps L N) (hadv : sc.needsAdvance = true) (hphase : sc.phase = .paused) : sc.advance.Keeps L N := by
  obtain ⟨-, front, -, hpaused, hlays⟩ := h
  rw [Scan.advance, if_pos hadv]
  cases hd : sc.done with
  | true => exact ⟨by simp, front, by simp, by simp, hlays⟩
  | false => exact ⟨by simp, front, fun _ => hpaused hphase, by simp, hlays⟩

lemma Scan.start_keeps {s : EngineState} (hs : s.durableSeq ≤ N) (fromSequence maxBytes : ℕ) :
    (start s fromSequence maxBytes).Keeps L N :=
  ⟨fun _ => rfl, L.entries 0, fun _ => (append_nil _).symm, nofun, hs, nofun, fun h => absurd rfl h, nofun, nofun⟩

end Scan

section System

variable {κ : Type} [DecidableEq κ] {crc : Crc} {sys : System κ}

/-- The runs over an index of at most `n` bookmarks a file and while nothing above `N` is durable, in which no scan that
planned a new table then finds a bookmark to start at. -/
def carefulMachine (crc : Crc) (L : ChangeLog) (κ : Type) [DecidableEq κ] (n N : ℕ) :
    Machine (System κ) (Action κ) where
  initial sys := (machine crc L κ).initial sys ∧ sys.index.maxBookmarks = n
  Enabled sys a := Enabled L sys a ∧
    match a with
    | .begin _ s _ _ => s.durableSeq ≤ N
    | .step k => ∀ sc, sys.scans k = some sc → sc.phase = .seeking → sc.plan.generation = 0 →
        (sys.index.seek sc.fileId sc.fromSequence).1 = none
    | _ => True
  next := System.next crc (L.bytes crc)

structure System.Keeps (L : ChangeLog) (n N : ℕ) (sys : System κ) : Prop where
  sound : sys.Sound L
  index : IndexLaid L n N sys.index
  scans : ∀ k sc, sys.scans k = some sc → sc.Keeps L N

lemma System.setScan_scans {P : Scan → Prop} (h : ∀ k sc, sys.scans k = some sc → P sc) (k : κ) {o : Option Scan}
    (ho : ∀ sc ∈ o, P sc) : ∀ k' sc, Function.update sys.scans k o k' = some sc → P sc := by
  intro k' sc hk
  rw [Function.update_apply] at hk
  split_ifs at hk
  · exact ho sc hk
  · exact h k' sc hk

lemma System.Keeps.next (hn : 2 ≤ n) (h : sys.Keeps L n N) (a : Action κ) (ha : (carefulMachine crc L κ n N).Enabled sys a) :
    (sys.next crc (L.bytes crc) a).Keeps L n N := by
  have hsound : (sys.next crc (L.bytes crc) a).Sound L := h.sound.next a ha.1
  obtain ⟨ha, hcareful⟩ := ha
  cases a with
  | begin k s f m =>
    exact ⟨hsound, h.index, setScan_scans h.scans k fun sc hsc => Option.some.inj hsc ▸ start_keeps hcareful f m⟩
  | step k =>
    obtain ⟨sc, hk, -⟩ := ha
    obtain ⟨hkeeps, hix⟩ := @Scan.step_keeps L n N _ _ crc hn h.index h.sound.index (h.sound.scans k sc hk) (h.scans k sc hk)
      (hcareful sc hk)
    simp only [System.next, hk] at hsound ⊢
    exact ⟨hsound, hix, setScan_scans h.scans k fun sc' hsc' => Option.some.inj hsc' ▸ hkeeps⟩
  | advance k =>
    obtain ⟨sc, hk, hphase⟩ := ha
    have hplaced := (h.sound.scans k sc hk).walks.placed
    simp only [Placed, hphase] at hplaced
    simp only [System.next, hk] at hsound ⊢
    exact ⟨hsound, h.index, setScan_scans h.scans k fun sc' hsc' =>
      Option.some.inj hsc' ▸ (h.scans k sc hk).advance hplaced.1 hphase⟩
  | drop k =>
    obtain ⟨sc, hk⟩ := isSome_iff_exists.1 ha
    obtain ⟨-, front, -, -, hlays⟩ := h.scans k sc hk
    have hix := (handOver_lays hn h.index hlays).2
    simp only [System.next, hk] at hsound ⊢
    exact ⟨hsound, hix, setScan_scans h.scans k (o := none) fun _ hsc => by cases hsc⟩
  | forget id => exact ⟨hsound, h.index.forget id, h.scans⟩
  | clear => exact ⟨hsound, ⟨fun _ _ ht => absurd ht (some_ne_none _).symm, h.index.maxBookmarks⟩, h.scans⟩

lemma keeps_of_reachable (hn : 2 ≤ n) (h : (carefulMachine crc L κ n N).Reachable sys) : sys.Keeps L n N := by
  refine h.invariant ?_ fun sys a hk ha => hk.next hn a ha
  rintro sys ⟨hinit, hmax⟩
  refine ⟨@reachable_sound crc _ _ _ _ (.start hinit), ⟨fun id t ht => ?_, hmax⟩, fun k sc hk => ?_⟩
  · rw [hinit.1] at ht
    cases ht
  · rw [hinit.2] at hk
    cases hk

/-- In such a run every table ascends, is spaced and short, names unit boundaries that were durable, and begins at the file's
first boundary at or past a spacing. -/
theorem tables_begin_first (hn : 2 ≤ n) (h : (carefulMachine crc L κ n N).Reachable sys) {t : Table}
    (ht : sys.index.tables.get id = some t) :
    t.bookmarks.Pairwise (fun a b => a.sequence < b.sequence ∧ a.offset < b.offset) ∧
    t.bookmarks.IsChain (fun a b => a.offset + t.spacing ≤ b.offset) ∧ t.bookmarks.length < n ∧
    (∀ b ∈ t.bookmarks, Marks L id b ∧ b.sequence ≤ N) ∧ ∃ b ∈ t.bookmarks.head?, First L id b := by
  have hkeeps := keeps_of_reachable hn h
  have hsound := hkeeps.sound.index id t ht
  have hlaid := hkeeps.index.tables id t ht
  exact ⟨hsound.sequences.and hsound.ascending, hlaid.spaced, hlaid.few, fun b hb => ⟨hsound.holds b hb, hlaid.durable b hb⟩,
    hlaid.starts⟩

section Raced

def longUnits (id : FileId) : List (List DataEntry) :=
  if id = 0 then
    [[⟨1, .put, [1], List.replicate 4100 0⟩], [⟨2, .put, [2], []⟩], [⟨3, .put, [3], List.replicate 4100 0⟩], [⟨4, .put, [4], []⟩],
      [⟨5, .put, [5], []⟩]]
  else []

lemma longUnits_fits (id : FileId) : ∀ u ∈ longUnits id, u.length = 1 ∧ ∀ e ∈ u, e.entryType = .put ∧ e.sequence ≠ 0 ∧
    e.sequence ≤ 5 ∧ e.key.length < 256 ^ 2 ∧ e.value.length < 256 ^ 4 := by
  by_cases hid : id = 0
  · rw [hid]
    decide +kernel
  · rw [longUnits, if_neg hid]
    nofun

def longLog : ChangeLog where
  units := longUnits
  isUnit id u hu := by
    obtain ⟨hlen, hput⟩ := longUnits_fits id u hu
    obtain ⟨e, rfl⟩ := length_eq_one_iff.1 hlen
    exact .single (by rw [(hput e mem_cons_self).1]; nofun)
  fits id u hu e he := by
    obtain ⟨hput, hpos, hle, hkey, hvalue⟩ := (longUnits_fits id u hu).2 e he
    exact ⟨hpos, hle.trans_lt (by decide), hkey, hvalue, fun h => by rw [hput] at h; cases h⟩
  ascending id := by
    by_cases hid : id = 0
    · rw [hid]
      decide +kernel
    · rw [longUnits, if_neg hid]
      exact .nil

def longState : EngineState where
  files := ⟨[(0, 0)], by decide⟩
  fileStats := ⟨[(0, { minSequence := 1, maxSequence := 5 })], by decide⟩
  activeFileId := 0
  nextFileId := 1
  nextSeq := 6
  durableSeq := 5

lemma longState_stats {id : FileId} {fs : FileStats} (h : longState.fileStats.get id = some fs) :
    id = 0 ∧ fs = { minSequence := 1, maxSequence := 5 } := by
  have hmem := SortedMap.get_eq_some.1 h
  simpa [longState] using hmem

lemma longState_snapshot : Snapshot longLog longState where
  known id fs h := by
    obtain ⟨rfl, -⟩ := longState_stats h
    rfl
  stats id fs h := by
    obtain ⟨rfl, rfl⟩ := longState_stats h
    exact ⟨longUnits 0, [], rfl, rfl, rfl, by simp⟩
  boundary id u hu := .inl fun e he => ((longUnits_fits id u hu).2 e he).2.2.1
  apart id id' fs fs' h h' hne := absurd ((longState_stats h).1.trans (longState_stats h').1.symm) hne

def layingOne : List (Action Bool) :=
  [.begin false longState 0 10000, .step false, .step false, .step false, .advance false, .step false, .drop false]

def laidOne : System Bool := layingOne.foldl (System.next (fun _ => 0) (longLog.bytes fun _ => 0)) ⟨{}, fun _ => none⟩

lemma enabled_step {crc : Crc} {sys : System Bool} {k : Bool}
    (h : ∃ sc ∈ sys.scans k, sc.phase ≠ .paused ∧ sc.phase ≠ .ended ∧ sc.phase ≠ .seeking) :
    (carefulMachine crc L Bool n N).Enabled sys (.step k) := by
  obtain ⟨sc, hk, hpaused, hended, hseek⟩ := h
  refine ⟨⟨sc, hk, hpaused, hended⟩, fun sc' hk' hphase => ?_⟩
  cases hk.symm.trans hk'
  exact absurd hphase hseek

lemma laidOne_reachable : (carefulMachine (fun _ => 0) longLog Bool 16384 5).Reachable laidOne := by
  have hpath : (carefulMachine (fun _ => 0) longLog Bool 16384 5).Path ⟨{}, fun _ => none⟩ layingOne laidOne := by
    refine .cons _ ⟨⟨rfl, longState_snapshot⟩, le_rfl⟩ (.cons _ (enabled_step ?_) (.cons _ (enabled_step ?_)
      (.cons _ (enabled_step ?_) (.cons _ ⟨?_, trivial⟩ (.cons _ (enabled_step ?_) (.cons _ ⟨?_, trivial⟩ (.nil _)))))))
    · decide +kernel
    · decide +kernel
    · decide +kernel
    · show ∃ sc ∈ System.scans _ false, sc.phase = .paused
      decide +kernel
    · decide +kernel
    · show (System.scans _ false).isSome = true
      decide +kernel
  exact hpath.reachable (.start ⟨⟨rfl, fun _ => rfl⟩, rfl⟩)

theorem laidOne_begins_first : (laidOne.index.tables.get 0).map Table.bookmarks = some [⟨2, 4120⟩] ∧ First longLog 0 ⟨2, 4120⟩ := by
  have htable : (laidOne.index.tables.get 0).map Table.bookmarks = some [⟨2, 4120⟩] := by decide +kernel
  refine ⟨htable, ?_⟩
  obtain ⟨t, ht, hbookmarks⟩ := map_eq_some_iff.1 htable
  obtain ⟨b, hb, hfirst⟩ := (tables_begin_first (by decide) laidOne_reachable ht).2.2.2.2
  rw [hbookmarks] at hb
  cases hb
  exact hfirst

abbrev longRead (k : Bool) (steps : ℕ) (sys : System Bool) : System Bool :=
  sys.readOn (fun _ => 0) (longLog.bytes fun _ => 0) k steps

def twoBegun : System Bool := [.begin true longState 4 10000, .begin false longState 0 10000].foldl
  (System.next (fun _ => 0) (longLog.bytes fun _ => 0)) ⟨{}, fun _ => none⟩

/-- A scan plans a new table; another one lays it, and the first finds a bookmark there. Then the table goes, and the first
scan lays its own from where it was sent. -/
def raced : System Bool :=
  longRead true 10 (System.next (fun _ => 0) (longLog.bytes fun _ => 0)
    (longRead true 1 (longRead false 20 (longRead true 2 twoBegun))) (.forget 0))

lemma raced_reachable : (machine (fun _ => 0) longLog Bool).Reachable raced := by
  have hstart : (machine (fun _ => 0) longLog Bool).Reachable ⟨{}, fun _ => none⟩ := .start ⟨rfl, fun _ => rfl⟩
  have hone := hstart.step (.begin true _ 4 10000 : Action Bool) ⟨rfl, longState_snapshot⟩
  have htwo : (machine (fun _ => 0) longLog Bool).Reachable twoBegun :=
    hone.step (.begin false _ 0 10000 : Action Bool) ⟨rfl, longState_snapshot⟩
  have hsought := reachable_readOn (reachable_readOn (reachable_readOn htwo true 2) false 20) true 1
  exact reachable_readOn (hsought.step (.forget 0 : Action Bool) trivial) true 10

theorem raced_table_begins_late : (machine (fun _ => 0) longLog Bool).Reachable raced ∧
    (raced.index.tables.get 0).map Table.bookmarks = some [⟨4, 8260⟩] ∧ Marks longLog 0 ⟨2, 4120⟩ ∧ bookmarkSpacing ≤ 4120 := by
  refine ⟨raced_reachable, by decide +kernel, ?_, by decide⟩
  exact ⟨(longUnits 0).take 1, [⟨2, .put, [2], []⟩], (longUnits 0).drop 2, ⟨2, .put, [2], []⟩, rfl, rfl, by decide +kernel⟩

end Raced

end System

end Bytecask.Changes
