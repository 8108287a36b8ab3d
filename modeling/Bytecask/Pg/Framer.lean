import Bytecask.Wire

/-! Startup packets and messages, cut from a connection's bytes as they arrive. -/

namespace Bytecask.Pg

open List

def sslRequest : ℕ := 80877103

def gssEncRequest : ℕ := 80877104

def maxMessage : ℕ := 64 <<< 20

def readU32 (s : Bytes) : ℕ := (s.take 4).foldl (fun v b => v <<< 8 ||| b.val) 0

inductive Input where
  | startup (body : Bytes)
  | message (type : Byte) (body : Bytes)
  | badStartupLength
  | badMessageLength

/-- The two branches of the loop: `before` bytes and a length from `least` to `most` stand ahead of a body, which with
those bytes is an input, and says which branch is next. -/
structure Branch where
  before : ℕ
  least : ℕ
  most : ℕ
  bad : Input
  unit : Bytes → Bytes → Input × Bool

def branch : Bool → Branch
  | true =>
    { before := 0, least := 8, most := 10000, bad := .badStartupLength
      unit := fun _ body => (.startup body, !decide (readU32 body ≠ sslRequest ∧ readU32 body ≠ gssEncRequest)) }
  | false =>
    { before := 1, least := 4, most := maxMessage, bad := .badMessageLength
      unit := fun type body => (.message (type.getD 0 0) body, false) }

inductive Round where
  | more
  | bad (i : Input)
  | unit (i : Input × Bool) (rest : Bytes)

def Branch.len (b : Branch) (in_ : Bytes) : ℕ := readU32 (in_.drop b.before)

/-- A round of the loop over what the buffer holds from `pos_` on. -/
def Branch.round (b : Branch) (in_ : Bytes) : Round :=
  if in_.length < b.before + 4 then .more
  else if b.len in_ < b.least ∨ b.most < b.len in_ then .bad b.bad
  else if in_.length < b.before + b.len in_ then .more
  else .unit (b.unit (in_.take b.before) ((in_.drop (b.before + 4)).take (b.len in_ - 4))) (in_.drop (b.before + b.len in_))

section Round

variable {b : Branch} {u : Input × Bool} {xs rest : Bytes}

lemma Branch.len_append (h : ¬ xs.length < b.before + 4) (ys : Bytes) : b.len (xs ++ ys) = b.len xs := by
  rw [len, drop_append_of_le_length (by omega), readU32, take_append_of_le_length (by rw [length_drop]; omega)]
  rfl

lemma bigEndian_readU32 (h : 4 ≤ xs.length) : bigEndian 4 (readU32 xs) = xs.take 4 := by
  have hread : readU32 xs = readLittleEndian (xs.take 4).reverse := by
    rw [readLittleEndian_eq_foldr, foldr_reverse, readU32]
    congr 1
    funext v b
    rw [← Nat.shiftLeft_add_eq_or_of_lt b.isLt, Nat.shiftLeft_eq]
    omega
  have hback := littleEndian_readLittleEndian (xs.take 4).reverse
  rw [length_reverse, length_take_of_le h] at hback
  rw [bigEndian, hread, hback, reverse_reverse]

lemma Branch.round_bad {i : Input} (h : b.round xs = .bad i) : i = b.bad ∧ ∀ ys, b.round (xs ++ ys) = .bad i := by
  unfold round at h
  split_ifs at h with hhead hbad
  injection h with h
  refine ⟨h.symm, fun ys => ?_⟩
  rw [round, if_neg (by rw [length_append]; omega), b.len_append hhead, if_pos hbad, h]

/-- A unit in front is the body its length says, whatever comes after it. -/
lemma Branch.round_unit (hleast : 4 ≤ b.least) (h : b.round xs = .unit u rest) :
    (∃ hdr body, u = b.unit hdr body ∧ hdr.length = b.before ∧ hdr ++ (bigEndian 4 (4 + body.length) ++ body) ++ rest = xs) ∧
      ∀ ys, b.round (xs ++ ys) = .unit u (rest ++ ys) := by
  unfold round at h
  split_ifs at h with hhead hbad hall
  injection h with hu hrest
  have hlen := b.len_append hhead
  have hword : bigEndian 4 (b.len xs) = (xs.drop b.before).take 4 := bigEndian_readU32 (by rw [length_drop]; omega)
  generalize b.len xs = n at hbad hall hu hrest hlen hword
  constructor
  · refine ⟨_, _, hu.symm, length_take_of_le (by omega), ?_⟩
    have hbody : 4 + ((xs.drop (b.before + 4)).take (n - 4)).length = n := by
      rw [length_take_of_le (by rw [length_drop]; omega)]
      omega
    have hdrop : rest = (xs.drop (b.before + 4)).drop (n - 4) := by
      rw [← hrest, drop_drop]
      congr 1
      omega
    rw [hbody, hword, hdrop, append_assoc, append_assoc, take_append_drop, ← drop_drop, take_append_drop, take_append_drop]
  · intro ys
    have hbody : ((xs ++ ys).drop (b.before + 4)).take (n - 4) = (xs.drop (b.before + 4)).take (n - 4) := by
      rw [drop_append_of_le_length (by omega), take_append_of_le_length (by rw [length_drop]; omega)]
    rw [round, if_neg (by rw [length_append]; omega), hlen, if_neg hbad, if_neg (by rw [length_append]; omega), hbody,
      take_append_of_le_length (by omega), drop_append_of_le_length (by omega), hu, hrest]

end Round

def Input.write : Input → Bytes
  | .startup body => bigEndian 4 (4 + body.length) ++ body
  | .message type body => type :: (bigEndian 4 (4 + body.length) ++ body)
  | .badStartupLength | .badMessageLength => []

def Input.OutOfBounds (i : Input) : Prop := i = .badStartupLength ∨ i = .badMessageLength

section Loop

variable {startup t : Bool} {i : Input} {u : Input × Bool} {xs rest : Bytes}

lemma branch_bad (startup : Bool) : (branch startup).bad.OutOfBounds := by
  cases startup with
  | true => exact .inl rfl
  | false => exact .inr rfl

lemma branch_unit (h : (branch startup).round xs = .unit u rest) : ¬ u.1.OutOfBounds ∧ u.1.write ++ rest = xs ∧
    rest.length < xs.length ∧ ∀ ys, (branch startup).round (xs ++ ys) = .unit u (rest ++ ys) := by
  obtain ⟨⟨hdr, body, rfl, hhdr, hxs⟩, happend⟩ := Branch.round_unit (by cases startup <;> decide) h
  have hlen : rest.length < xs.length := by
    rw [← hxs, length_append, length_append, length_append, bigEndian_length]
    omega
  refine ⟨?_, ?_, hlen, happend⟩
  · cases startup <;> rintro (hbad | hbad) <;> cases hbad
  · cases startup with
    | true =>
      rw [eq_nil_of_length_eq_zero hhdr] at hxs
      exact hxs
    | false =>
      obtain ⟨type, rfl⟩ := length_eq_one_iff.1 hhdr
      exact hxs

/-- The loop of `push`: what it gives, and the bytes it leaves, or `none` where a length ends it. -/
def loop (startup : Bool) (in_ : Bytes) : List Input × Bool × Option Bytes :=
  match _h : (branch startup).round in_ with
  | .more => ([], startup, some in_)
  | .bad i => ([i], startup, none)
  | .unit u rest => (u.1 :: (loop u.2 rest).1, (loop u.2 rest).2)
termination_by in_.length
decreasing_by all_goals exact (branch_unit ‹_›).2.2.1

lemma loop_eq (startup : Bool) (in_ : Bytes) : loop startup in_ = match (branch startup).round in_ with
    | .more => ([], startup, some in_)
    | .bad i => ([i], startup, none)
    | .unit u rest => (u.1 :: (loop u.2 rest).1, (loop u.2 rest).2) := by
  rw [loop]
  split <;> next h => rw [h]

lemma loop_append (startup : Bool) (xs ys : Bytes) : loop startup (xs ++ ys) = match (loop startup xs).2 with
    | (_, none) => loop startup xs
    | (t, some rest) => ((loop startup xs).1 ++ (loop t (rest ++ ys)).1, (loop t (rest ++ ys)).2) := by
  induction startup, xs using loop.induct with
  | case1 startup xs h => rw [loop_eq startup xs, h]; rfl
  | case2 startup xs i h => rw [loop_eq startup xs, loop_eq startup (xs ++ ys), h, (Branch.round_bad h).2 ys]
  | case3 startup xs u rest h ih =>
    rw [loop_eq startup xs, loop_eq startup (xs ++ ys), h, (branch_unit h).2.2.2 ys]
    dsimp only
    rw [ih]
    rcases loop u.2 rest with ⟨out, t, _ | left⟩ <;> rfl

/-- What the loop gives is what it took off the front, what it leaves has no unit in front, and a length out of bounds comes last. -/
lemma loop_spec (startup : Bool) (xs : Bytes) : (∃ rest, (loop startup xs).1.flatMap Input.write ++ rest = xs ∧
      ∀ left ∈ (loop startup xs).2.2, left = rest ∧ (branch (loop startup xs).2.1).round rest = .more) ∧
    ∀ given i kept, (loop startup xs).1 = given ++ i :: kept → i.OutOfBounds → kept = [] := by
  induction startup, xs using loop.induct with
  | case1 startup xs h =>
    rw [loop_eq, h]
    exact ⟨⟨xs, rfl, fun left hl => ⟨(Option.some.inj hl).symm, h⟩⟩, fun given i kept hnil => by simp at hnil⟩
  | case2 startup xs i h =>
    rw [loop_eq, h]
    refine ⟨⟨xs, ?_, nofun⟩, fun given j kept hlast _ => ?_⟩
    · obtain rfl := (Branch.round_bad h).1
      rcases branch_bad _ with hb | hb <;> rw [hb] <;> rfl
    · have := congrArg length hlast
      simp only [length_append, length_cons, length_nil] at this
      exact eq_nil_of_length_eq_zero (by omega)
  | case3 startup xs u rest h ih =>
    obtain ⟨hgood, hwrite, -⟩ := branch_unit h
    obtain ⟨⟨left, hleft, hheld⟩, hlast⟩ := ih
    rw [loop_eq, h]
    refine ⟨⟨left, ?_, hheld⟩, fun given i kept hout hbad => ?_⟩
    · rw [flatMap_cons, append_assoc, hleft, hwrite]
    · cases given with
      | nil =>
        cases hout
        exact absurd hbad hgood
      | cons j given => exact hlast given i kept (cons.inj hout).2 hbad

end Loop

/-- `in_` is the buffer from `pos_` on. -/
structure Framer where
  in_ : Bytes := []
  startup : Bool := true
  ended : Bool := false

namespace Framer

/-- What a call gives is appended to its caller's list. -/
def push (f : Framer) (bytes : Bytes) : Framer × List Input :=
  if f.ended || bytes.isEmpty then (f, [])
  else
    match loop f.startup (f.in_ ++ bytes) with
    | (out, startup, some rest) => ({ f with in_ := rest, startup }, out)
    | (out, startup, none) => ({ in_ := [], startup, ended := true }, out)

def pushAll (f : Framer) : List Bytes → Framer × List Input
  | [] => (f, [])
  | bytes :: pieces => ((pushAll (f.push bytes).1 pieces).1, (f.push bytes).2 ++ (pushAll (f.push bytes).1 pieces).2)

/-- What a framer has given of a stream, and what it holds. -/
def Framed (stream : Bytes) (f : Framer) (out : List Input) : Prop :=
  loop true stream = (out, f.startup, if f.ended then none else some f.in_)

variable {stream : Bytes} {f : Framer} {out : List Input}

lemma Framed.push (h : Framed stream f out) (bytes : Bytes) :
    Framed (stream ++ bytes) (f.push bytes).1 (out ++ (f.push bytes).2) := by
  have happend := loop_append true stream bytes
  rw [h] at happend
  cases hend : f.ended with
  | true =>
    have hpush : f.push bytes = (f, []) := by
      rw [Framer.push, hend]
      rfl
    rw [Framed, hpush, happend, append_nil, hend]
    rfl
  | false =>
    rw [hend] at happend
    cases bytes with
    | nil =>
      have hpush : f.push [] = (f, []) := by
        rw [Framer.push, hend]
        rfl
      rw [hpush, append_nil, append_nil]
      exact h
    | cons b bytes =>
      have happend : loop true (stream ++ b :: bytes) =
        (out ++ (loop f.startup (f.in_ ++ b :: bytes)).1, (loop f.startup (f.in_ ++ b :: bytes)).2) := happend
      rw [Framed, happend, Framer.push, hend]
      rcases loop f.startup (f.in_ ++ b :: bytes) with ⟨more, t, _ | rest⟩ <;> rfl

lemma Framed.pushAll (h : Framed stream f out) (pieces : List Bytes) :
    Framed (stream ++ pieces.flatten) (f.pushAll pieces).1 (out ++ (f.pushAll pieces).2) := by
  induction pieces generalizing stream f out with
  | nil =>
    rw [flatten_nil, append_nil, Framer.pushAll, append_nil]
    exact h
  | cons bytes pieces ih =>
    rw [flatten_cons, ← append_assoc, Framer.pushAll, ← append_assoc]
    exact ih (h.push bytes)

/-- What a framer gives does not depend on the pieces the stream came in. Written out again it is the stream up to what
the framer still holds, in which no unit is complete, and a length out of bounds is the last it gives. -/
theorem framing_ignores_cuts (pieces : List Bytes) :
    (pushAll {} pieces).2 = (push {} pieces.flatten).2 ∧
    (∃ rest, (pushAll {} pieces).2.flatMap Input.write ++ rest = pieces.flatten ∧
      ((pushAll {} pieces).1.ended = false →
        (pushAll {} pieces).1.in_ = rest ∧ (branch (pushAll {} pieces).1.startup).round rest = .more)) ∧
    ∀ given i kept, (pushAll {} pieces).2 = given ++ i :: kept → i.OutOfBounds → kept = [] := by
  have hstart : Framed [] {} [] := loop_eq true []
  have hall : loop true pieces.flatten = _ := hstart.pushAll pieces
  have hone : loop true pieces.flatten = _ := hstart.push _
  obtain ⟨⟨rest, hwritten, hheld⟩, hlast⟩ := loop_spec true _
  rw [hall] at hone hwritten hheld hlast
  refine ⟨congrArg Prod.fst hone, ⟨rest, hwritten, fun hgo => hheld _ ?_⟩, hlast⟩
  rw [hgo]
  rfl

end Framer

end Bytecask.Pg
