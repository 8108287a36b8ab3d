import Bytecask.Scan.Iterator

/-! A log that is cut anywhere: a scan of what is left yields the whole units. -/

namespace Bytecask.Scan

open List

def fitting {α : Type*} (size : α → ℕ) (room : ℕ) : List α → List α
  | [] => []
  | x :: xs => if size x ≤ room then x :: fitting size (room - size x) xs else []

section Fitting

variable {α : Type*} {size : α → ℕ}

lemma fitting_front (room : ℕ) (xs : List α) : fitting size room xs <+: xs := by
  induction xs generalizing room with
  | nil => exact nil_prefix
  | cons x xs ih =>
    rw [fitting]
    split_ifs
    · exact prefix_cons_inj x |>.2 (ih _)
    · exact nil_prefix

lemma fitting_append {xs ys : List α} {room : ℕ} (h : (xs.map size).sum ≤ room) :
    fitting size room (xs ++ ys) = xs ++ fitting size (room - (xs.map size).sum) ys := by
  induction xs generalizing room with
  | nil => simp
  | cons x xs ih =>
    rw [map_cons, sum_cons] at h
    rw [cons_append, fitting, if_pos (by omega), ih (by omega), map_cons, sum_cons, Nat.sub_sub]
    rfl

lemma fitting_append_of_lt {xs : List α} {room : ℕ} (h : room < (xs.map size).sum) (ys : List α) :
    fitting size room (xs ++ ys) <+: xs ∧ fitting size room (xs ++ ys) ≠ xs := by
  induction xs generalizing room with
  | nil => simp at h
  | cons x xs ih =>
    rw [map_cons, sum_cons] at h
    rw [cons_append, fitting]
    split_ifs
    · obtain ⟨hp, hne⟩ := ih (show room - size x < (xs.map size).sum by omega)
      exact ⟨prefix_cons_inj x |>.2 hp, fun he => hne (List.cons.inj he).2⟩
    · exact ⟨ nil_prefix, (cons_ne_nil x xs).symm⟩

end Fitting

section Cut

variable {crc : Crc} {es : List DataEntry} {us : List (List DataEntry)} {cut : ℕ}

def torn (crc : Crc) (cut : ℕ) (es : List DataEntry) : Bytes :=
  ((serializeAll crc es).take cut).drop (bytesOf (fitting DataEntry.size cut es))

def Unmatched (crc : Crc) (bytes : Bytes) : Prop :=
  ∀ h after, readHeader bytes = some (h, after) → h.sequence ≠ 0 → h.recordBytes ≤ bytes.length →
    crcMatches crc (bytes.take h.recordBytes) = false

def Follows (crc : Crc) (torn tail : Bytes) : Prop :=
  tail = [] ∨ (torn = [] ∧ ∃ n, tail = List.replicate n 0) ∨ Unmatched crc (torn ++ tail)

lemma take_serializeAll (cut : ℕ) (es : List DataEntry) :
    (serializeAll crc es).take cut = serializeAll crc (fitting DataEntry.size cut es) ++ torn crc cut es ∧
      (torn crc cut es = [] ∨ ∃ e ∈ es, torn crc cut es <+: e.serialize crc ∧ (torn crc cut es).length < e.size) := by
  induction es generalizing cut with
  | nil => simp [torn, serializeAll, fitting]
  | cons e es ih =>
    have hsplit : serializeAll crc (e :: es) = e.serialize crc ++ serializeAll crc es := by
      simp [serializeAll]
    by_cases he : e.size ≤ cut
    · have hfit : fitting DataEntry.size cut (e :: es) = e :: fitting DataEntry.size (cut - e.size) es := by
        rw [fitting, if_pos he]
      have htake : (serializeAll crc (e :: es)).take cut = e.serialize crc ++ (serializeAll crc es).take (cut - e.size) := by
        rw [hsplit, take_append, e.serialize_length, take_of_length_le (by rw [e.serialize_length]; exact he)]
      have htorn : torn crc cut (e :: es) = torn crc (cut - e.size) es := by
        rw [torn, htake, hfit, bytesOf_cons, ← drop_drop, drop_left' e.serialize_length, torn]
      obtain ⟨hbytes, hpart⟩ := ih _
      rw [htake, hfit, htorn, hbytes]
      refine ⟨by simp [serializeAll], hpart.imp_right ?_⟩
      rintro ⟨x, hx, hp⟩
      exact ⟨x, mem_cons_of_mem e hx, hp⟩
    · have hfit : fitting DataEntry.size cut (e :: es) = [] := by
        rw [fitting, if_neg he]
      have htorn : torn crc cut (e :: es) = (e.serialize crc).take cut := by
        rw [torn, hfit, bytesOf_nil, drop_zero, hsplit, take_append_of_le_length]
        rw [e.serialize_length]
        omega
      refine ⟨by simp [torn, hfit, serializeAll], .inr ⟨e, mem_cons_self, ?_, ?_⟩⟩
      · rw [htorn]
        exact take_prefix _ _
      · rw [htorn, length_take, e.serialize_length]
        omega

lemma Follows.stop {tail : Bytes} (h : Follows crc (torn crc cut es) tail) (hes : ∀ e ∈ es, e.RecordFits) :
    ∃ tl, Bytecask.advance crc (torn crc cut es ++ tail) = .stop tl := by
  cases hadv : Bytecask.advance crc (torn crc cut es ++ tail) with
  | stop tl => exact ⟨tl, rfl⟩
  | entry e rest =>
    exfalso
    obtain ⟨hfits, hbytes⟩ := eq_serialize_of_advance hadv
    have hpos := e.size_pos
    rcases h with rfl | ⟨htorn, n, rfl⟩ | h
    · rw [append_nil] at hbytes
      have hlen := congrArg List.length hbytes
      rw [length_append, e.serialize_length] at hlen
      rcases (@take_serializeAll crc cut es).2 with hnil | ⟨x, hx, ⟨more, hmore⟩, hlt⟩
      · rw [hnil, length_nil] at hlen
        omega
      · -- The record that was cut is framed out of the same bytes, and is longer.
        have hx' := @advance_serialize crc x (hes x hx) []
        rw [append_nil, ← hmore, hbytes, append_assoc, advance_serialize hfits] at hx'
        obtain ⟨rfl, -⟩ := Framed.entry.inj hx'
        omega
    · rw [htorn, nil_append, DataEntry.serialize, DataEntry.covered] at hbytes
      simp only [append_assoc] at hbytes
      have hword : littleEndian 8 e.sequence = List.replicate 8 0 := by
        refine eq_replicate_iff.2 ⟨littleEndian_length 8 _, fun b hb => ?_⟩
        have hmem : b ∈ List.replicate n (0 : Byte) := by
          rw [hbytes]
          exact mem_append_left _ hb
        exact eq_of_mem_replicate hmem
      have hzero := readLittleEndian_littleEndian 8 e.sequence
      rw [hword, Nat.mod_eq_of_lt hfits.sequence] at hzero
      exact hfits.positive hzero.symm
    · obtain ⟨after, hh⟩ := @readHeader_serialize crc e hfits rest
      rw [← hbytes] at hh
      have hsize : (⟨e.sequence, e.entryType.code, e.key.length, e.value.length⟩ : EntryHeader).recordBytes = e.size := rfl
      have hno := h _ after hh hfits.positive (by rw [hsize, hbytes, length_append, e.serialize_length]; omega)
      rw [hsize, hbytes, take_left' e.serialize_length, crcMatches_serialize] at hno
      cases hno

lemma IsUnit.torn_of_front {u part : List DataEntry} (hu : IsUnit u) (hp : part <+: u) (hne : part ≠ u) : Torn part := by
  cases hu with
  | @single e he =>
    rcases prefix_cons_iff.1 hp with rfl | ⟨t, rfl, ht⟩
    · exact .nil
    · rw [prefix_nil.1 ht] at hne
      exact absurd rfl hne
  | @batch b e xs hb he hxs =>
    rcases prefix_concat_iff.1 (by simpa using hp : part <+: (b :: xs) ++ [e]) with rfl | hp
    · exact absurd rfl hne
    · rcases prefix_cons_iff.1 hp with rfl | ⟨t, rfl, ht⟩
      · exact .nil
      · exact .batch hb fun x hx => hxs x (ht.subset hx)

lemma fitting_flatten (hus : ∀ u ∈ us, IsUnit u) (cut : ℕ) :
    ∃ part, fitting DataEntry.size cut us.flatten = (fitting bytesOf cut us).flatten ++ part ∧ Torn part := by
  induction us generalizing cut with
  | nil => exact ⟨[], rfl, .nil⟩
  | cons u us ih =>
    by_cases hu : bytesOf u ≤ cut
    · obtain ⟨part, hpart, htorn⟩ := ih (fun v hv => hus v (mem_cons_of_mem u hv)) _
      refine ⟨part, ?_, htorn⟩
      rw [flatten_cons, fitting_append hu, fitting, if_pos hu, flatten_cons, append_assoc, ← hpart]
      rfl
    · rw [fitting, if_neg hu]
      obtain ⟨hp, hne⟩ := @fitting_append_of_lt _ _ u cut (not_le.1 hu) _
      exact ⟨_, rfl, IsUnit.torn_of_front (hus u mem_cons_self) hp hne⟩

lemma bytesOf_flatten (us : List (List DataEntry)) : bytesOf us.flatten = (us.map bytesOf).sum := by
  induction us with
  | nil => rfl
  | cons u us ih => rw [flatten_cons, bytesOf_append, ih, map_cons, sum_cons]

lemma units_flatten (hus : ∀ u ∈ us, IsUnit u) : Units us.flatten := by
  induction us with
  | nil => exact .nil
  | cons u us ih => exact .cons (hus u mem_cons_self) (ih fun v hv => hus v (mem_cons_of_mem u hv))

lemma holds_cut {front : List (List DataEntry)} (hus : ∀ u ∈ us, IsUnit u) (hfits : ∀ u ∈ us, ∀ e ∈ u, e.RecordFits)
    (hfront : front <+: fitting bytesOf cut us) {tail : Bytes} (htail : Follows crc (torn crc cut us.flatten) tail) :
    ∃ part tl, Torn part ∧
      Holds crc ((serializeAll crc us.flatten).take cut ++ tail) (bytesOf front.flatten)
        (((fitting bytesOf cut us).drop front.length).flatten ++ part) (torn crc cut us.flatten ++ tail) tl := by
  have hall : ∀ e ∈ us.flatten, e.RecordFits := by
    intro e he
    obtain ⟨u, hu, he⟩ := mem_flatten.1 he
    exact hfits u hu e he
  obtain ⟨part, hpart, htorn⟩ := fitting_flatten hus cut
  obtain ⟨tl, hstop⟩ := htail.stop hall
  obtain ⟨later, hlater⟩ := hfront
  have hdrop : (fitting bytesOf cut us).drop front.length = later := by
    rw [← hlater, drop_left]
  refine ⟨part, tl, htorn, ?_⟩
  have hwhole : Holds crc ((serializeAll crc us.flatten).take cut ++ tail) 0 (front.flatten ++ (later.flatten ++ part))
      (torn crc cut us.flatten ++ tail) tl := by
    refine ⟨?_, fun e he => hall e ((@fitting_front _ DataEntry.size cut _).subset ?_), hstop⟩
    · rw [drop_zero, (take_serializeAll cut _).1, hpart, ← hlater, flatten_append, append_assoc,
        append_assoc]
    · rw [hpart, ← hlater, flatten_append, append_assoc]
      exact he
  have hfrom := hwhole.append
  rw [Nat.zero_add] at hfrom
  rw [hdrop]
  exact hfrom

/-- A scan of a cut log, from any of its unit boundaries on, yields the units that are whole. -/
theorem cut_log_yields_units (crc : Crc) (us : List (List DataEntry)) (hus : ∀ u ∈ us, IsUnit u)
    (hfits : ∀ u ∈ us, ∀ e ∈ u, e.RecordFits) (cut : ℕ) (tail : Bytes) (htail : Follows crc (torn crc cut us.flatten) tail)
    (i : ℕ) (hi : i ≤ us.length) (hcut : bytesOf (us.take i).flatten ≤ cut) (onDamage : OnDamage) :
    let whole := fitting bytesOf cut us
    let start := bytesOf (us.take i).flatten
    let scan := scanCommitted crc ((serializeAll crc us.flatten).take cut ++ tail) start onDamage
    scan.yielded = located start (whole.drop i).flatten ∧
      scan.committedOffset = (if whole.drop i = [] then 0 else bytesOf whole.flatten) ∧
      (onDamage = .stop → scan.error = none) := by
  intro whole start scan
  have hwhole : whole <+: us := fitting_front cut us
  have hsplit : whole = us.take i ++ fitting bytesOf (cut - start) (us.drop i) := by
    rw [bytesOf_flatten] at hcut
    rw [show start = _ from bytesOf_flatten _, ← fitting_append hcut, take_append_drop]
  obtain ⟨part, tl, hpart, hholds⟩ := holds_cut hus hfits ⟨_, hsplit.symm⟩ htail
  rw [length_take_of_le hi] at hholds
  have hmem : ∀ u ∈ whole.drop i, IsUnit u := fun u hu => hus u (hwhole.subset (mem_of_mem_drop hu))
  have hscan : scan = _ := @scanCommitted_units crc _ _ tl _ start _ _ (units_flatten hmem) hpart hholds
  refine ⟨by rw [hscan], ?_, ?_⟩
  · have hnil : (whole.drop i).flatten = [] ↔ whole.drop i = [] := by
      refine ⟨fun h => eq_nil_iff_forall_not_mem.2 fun u hu => ?_, fun h => by rw [h, flatten_nil]⟩
      exact (hmem u hu).ne_nil (flatten_eq_nil_iff.1 h u hu)
    have hend : start + bytesOf (whole.drop i).flatten = bytesOf whole.flatten := by
      rw [hsplit, drop_left' (length_take_of_le hi), flatten_append, bytesOf_append]
    rw [hscan]
    rw [hend]
    exact if_congr hnil rfl rfl
  · rintro rfl
    rw [hscan]
    simp

def cutUnits : List (List DataEntry) :=
  [[⟨1, .put, [7], [8]⟩], [⟨2, .delete, [7], []⟩], [⟨3, .bulkBegin, [], []⟩, ⟨4, .put, [9], []⟩, ⟨5, .bulkEnd, [], []⟩]]

lemma cutUnits_isUnit : ∀ u ∈ cutUnits, IsUnit u := by
  simp only [cutUnits, forall_mem_cons]
  exact ⟨.single (by decide), .single (by decide), @IsUnit.batch _ _ [_] (by decide) (by decide) (by decide), by simp⟩

lemma cutUnits_fits : ∀ u ∈ cutUnits, ∀ e ∈ u, e.RecordFits := by
  have hall : ∀ u ∈ cutUnits, ∀ e ∈ u, e.sequence ≠ 0 ∧ e.sequence < 256 ^ 8 ∧ e.key.length < 256 ^ 2 ∧
      e.value.length < 256 ^ 4 ∧ e.entryType ≠ .changeMarker := by decide
  intro u hu e he
  obtain ⟨h₁, h₂, h₃, h₄, h₅⟩ := hall u hu e he
  exact ⟨h₁, h₂, h₃, h₄, fun hm => absurd hm h₅⟩

theorem cutUnits_yielded :
    scanCommitted crc32c ((serializeAll crc32c cutUnits.flatten).take 97 ++ [0, 0, 0]) 21 .stop =
      ⟨[(⟨2, .delete, [7], []⟩, 21)], 41, none⟩ := by
  have hheader : readHeader (torn crc32c 97 cutUnits.flatten ++ [0, 0, 0]) =
      some (⟨5, 4, 0, 0⟩, (torn crc32c 97 cutUnits.flatten ++ [0, 0, 0]).drop 15) := by decide +kernel
  have htail : Follows crc32c (torn crc32c 97 cutUnits.flatten) [0, 0, 0] := by
    refine .inr (.inr fun h after hh _ _ => ?_)
    obtain ⟨rfl, -⟩ := Prod.mk.inj (Option.some.inj hh)
    decide +kernel
  obtain ⟨hy, hc, he⟩ := cut_log_yields_units crc32c _ cutUnits_isUnit cutUnits_fits 97 [0, 0, 0] htail 1 (by decide)
    (by decide) .stop
  exact Scanned.ext hy hc (he rfl)

/-- Zeros may be the very bytes that a cut took off. -/
theorem zeros_complete_record :
    let u : List DataEntry := [⟨1, .put, [0], [20]⟩]
    IsUnit u ∧ bytesOf u = 21 ∧
      scanCommitted crc32c ((serializeAll crc32c u).take 20 ++ [0]) 0 .stop = ⟨located 0 u, 21, none⟩ :=
  ⟨.single (by decide), by decide, by decide +kernel⟩

end Cut

end Bytecask.Scan
