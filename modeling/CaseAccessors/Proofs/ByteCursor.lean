import CaseAccessors.Proofs.CharacterClass
import CaseAccessors.Proofs.Position

/-! A cursor on the bytes of a text. It moves a byte at a time and keeps the line that it is on; a
move past the end is a fault, and so is a cut that goes through a character. In front of a part of
the text both are as lexing by characters has them, since no byte of a character outside ASCII is
taken for another character. -/
namespace CaseAccessors

/-- What stops a reader that checks each of its steps. -/
inductive Halt where
  /-- An index past the end, or a cut through a character. -/
  | outside
  /-- A depth below zero. -/
  | underflow
  /-- A loop that makes no headway, or leaves its range. -/
  | astray
  /-- A group without an end, where all delimiters have their partners. -/
  | unclosed
  /-- What is wrong with the text. -/
  | source (e : SourceError)
  deriving DecidableEq, Repr

def lower : Nat → Except Halt Nat
  | 0 => .error .underflow
  | n + 1 => .ok n

def IsAscii (s : Text) : Prop := ∀ c ∈ s, c.toNat < 0x80

instance (s : Text) : Decidable (IsAscii s) :=
  decidable_of_iff (s.all fun c => c.toNat < 0x80) (by simp [IsAscii])

namespace Text

/-- The bytes of a text, each as the character that has its number. -/
def bytes (s : Text) : List Char := (utf8 s).map Char.ofUInt8

def slice? (s : Text) (start stop : Nat) : Option Text :=
  (s.cutAt? stop).bind fun cut => (cut.1.cutAt? start).map Prod.snd

@[simp] theorem bytes_nil : bytes [] = [] := rfl

theorem bytes_append (s t : Text) : bytes (s ++ t) = bytes s ++ bytes t := by simp [bytes, utf8]

theorem bytes_cons (c : Char) (s : Text) : bytes (c :: s) = bytes [c] ++ bytes s :=
  bytes_append [c] s

theorem length_bytes_singleton (c : Char) : (bytes [c]).length = c.utf8Size := by
  simp [bytes, utf8, String.length_utf8EncodeChar]

@[simp] theorem length_bytes (s : Text) : (bytes s).length = byteSize s := by
  induction s with
  | nil => rfl
  | cons c s ih => rw [bytes_cons, List.length_append, length_bytes_singleton, ih, byteSize]

theorem toNat_of_mem_bytes {b c : Char} (h : b ∈ bytes [c]) :
    (c.toNat < 0x80 ∧ b = c) ∨ (0x80 ≤ c.toNat ∧ 0x80 ≤ b.toNat) := by
  simp only [bytes, utf8, List.flatMap_cons, List.flatMap_nil, List.append_nil, List.mem_map] at h
  obtain ⟨x, hx, rfl⟩ := h
  have hnat : (Char.ofUInt8 x).toNat = x.toNat := rfl
  have := toNat_of_mem_utf8EncodeChar hx
  rw [char_eq_iff, hnat]
  exact this

theorem utf8Size_of_ascii {c : Char} (h : c.toNat < 0x80) : c.utf8Size = 1 :=
  Char.utf8Size_eq_one_iff.2 (UInt32.le_iff_toNat_le.2 (Nat.le_of_lt_succ h))

theorem bytes_singleton {c : Char} (h : c.toNat < 0x80) : bytes [c] = [c] := by
  have hlen : (bytes [c]).length = 1 := by rw [length_bytes_singleton, utf8Size_of_ascii h]
  obtain ⟨b, hb⟩ := List.length_eq_one_iff.1 hlen
  have := toNat_of_mem_bytes (b := b) (c := c) (by simp [hb])
  obtain ⟨-, rfl⟩ | ⟨hc, -⟩ := this
  · exact hb
  · omega

theorem bytes_cons_ascii {c : Char} (h : c.toNat < 0x80) (s : Text) :
    bytes (c :: s) = c :: bytes s := by
  rw [bytes_cons, bytes_singleton h, List.singleton_append]

theorem bytes_append_ascii {s : Text} (h : IsAscii s) (t : Text) :
    bytes (s ++ t) = s ++ bytes t := by
  induction s with
  | nil => rfl
  | cons c s ih =>
    obtain ⟨hc, hs⟩ := List.forall_mem_cons.1 h
    rw [List.cons_append, bytes_cons_ascii hc, ih hs, List.cons_append]

theorem byteSize_of_ascii {s : Text} (h : IsAscii s) : byteSize s = s.length := by
  have := bytes_append_ascii h []
  rw [List.append_nil, bytes_nil, List.append_nil] at this
  rw [← length_bytes, this]

theorem high_of_mem_bytes {b c : Char} (hc : 0x80 ≤ c.toNat) (h : b ∈ bytes [c]) :
    0x80 ≤ b.toNat := by
  obtain ⟨hlow, -⟩ | ⟨-, hb⟩ := toNat_of_mem_bytes h
  · omega
  · exact hb

theorem exists_bytes_of_high {c : Char} (h : 0x80 ≤ c.toNat) :
    ∃ b bs, bytes [c] = b :: bs ∧ 0x80 ≤ b.toNat ∧ ∀ x ∈ bs, 0x80 ≤ x.toNat := by
  have hpos := c.utf8Size_pos
  rw [← length_bytes_singleton] at hpos
  obtain ⟨b, bs, hb⟩ := List.exists_cons_of_length_pos hpos
  have hall : ∀ x ∈ b :: bs, 0x80 ≤ x.toNat := fun x hx => high_of_mem_bytes h (hb ▸ hx)
  exact ⟨b, bs, hb, (List.forall_mem_cons.1 hall).1, (List.forall_mem_cons.1 hall).2⟩

/-- Marks are found among the bytes where they are found among the characters. -/
theorem isPrefixOf_bytes {mark : Text} (h : IsAscii mark) (s : Text) :
    mark.isPrefixOf (bytes s) = mark.isPrefixOf s := by
  induction mark generalizing s with
  | nil => simp
  | cons m mark ih =>
    obtain ⟨hm, hmark⟩ := List.forall_mem_cons.1 h
    cases s with
    | nil => rfl
    | cons c s =>
      by_cases hc : c.toNat < 0x80
      · rw [bytes_cons_ascii hc, List.isPrefixOf, List.isPrefixOf, ih hmark]
      · obtain ⟨b, bs, hb, hhigh, -⟩ := exists_bytes_of_high (Nat.le_of_not_lt hc)
        have hmb : (m == b) = false := beq_eq_false_iff_ne.2 (by rintro rfl; omega)
        have hmc : (m == c) = false := beq_eq_false_iff_ne.2 (by rintro rfl; omega)
        rw [bytes_cons, hb, List.cons_append, List.isPrefixOf, List.isPrefixOf, hmb, hmc]
        rfl

theorem slice?_append (front part back : Text) :
    slice? (front ++ (part ++ back)) (byteSize front) (byteSize front + byteSize part) =
      some part := by
  rw [slice?, ← List.append_assoc, ← byteSize_append, cutAt?_byteSize, Option.bind_some,
    cutAt?_byteSize]
  rfl

end Text

/-- How many bytes are passed over, on which line the next one is, and where that line begins. -/
structure Cursor where
  pos : Nat
  line : Nat
  lineStart : Nat
  deriving DecidableEq, Repr

namespace Cursor

def start : Cursor := ⟨0, 1, 0⟩

def peek (src : Text) (cur : Cursor) (ahead : Nat) : Option Char := src.bytes[cur.pos + ahead]?

def sees (src : Text) (cur : Cursor) (mark : Text) : Bool :=
  mark.isPrefixOf (src.bytes.drop cur.pos)

def ahead (src : Text) (cur : Cursor) : Except Halt (List Char) :=
  if cur.pos ≤ src.bytes.length then .ok (src.bytes.drop cur.pos) else .error .outside

def bump (src : Text) (cur : Cursor) : Except Halt Cursor :=
  match cur.peek src 0 with
  | none => .error .outside
  | some b => .ok (if b = '\n' then ⟨cur.pos + 1, cur.line + 1, cur.pos + 1⟩
      else ⟨cur.pos + 1, cur.line, cur.lineStart⟩)

def bumps (src : Text) : Nat → Cursor → Except Halt Cursor
  | 0, cur => .ok cur
  | n + 1, cur => do bumps src n (← cur.bump src)

def cut (src : Text) (start stop : Nat) : Except Halt Text :=
  match src.slice? start stop with
  | some s => .ok s
  | none => .error .outside

/-- Where the cursor is. Its column is counted in what its line has in front of it. -/
def place (src : Text) (cur : Cursor) : Except Halt Place := do
  let front ← cut src cur.lineStart cur.pos
  return ⟨cur.pos, cur.line, front.length + 1⟩

def behind (p : Text) : Cursor :=
  ⟨Text.byteSize p, 1 + p.count '\n', Text.byteSize (Layout.beforeLastLine p)⟩

def before (src rest : Text) : Cursor := behind (src.upTo rest)

def skip (cur : Cursor) (n : Nat) : Cursor := { cur with pos := cur.pos + n }

theorem behind_append_singleton (p : Text) (c : Char) :
    behind (p ++ [c]) =
      if c = '\n' then
        ⟨Text.byteSize p + c.utf8Size, 1 + p.count '\n' + 1, Text.byteSize p + c.utf8Size⟩
      else (behind p).skip c.utf8Size := by
  have hsize : Text.byteSize (p ++ [c]) = Text.byteSize p + c.utf8Size := by simp [Text.byteSize]
  have happend := Layout.beforeLastLine_append_lastLine (p ++ [c])
  split
  · next hc =>
    subst hc
    have hlast : Text.lastLine (p ++ ['\n']) = [] := Text.lastLine_append_of_mem (by simp)
    rw [hlast, List.append_nil] at happend
    simp [behind, happend, hsize, Nat.add_assoc]
  · next hc =>
    have hfront := Layout.beforeLastLine_append_lastLine p
    rw [Text.lastLine_append_of_not_mem (by simpa using Ne.symm hc), ← List.append_assoc] at happend
    have hsame : Layout.beforeLastLine (p ++ [c]) = Layout.beforeLastLine p :=
      List.append_cancel_right ((List.append_cancel_right happend).trans hfront.symm)
    simp [behind, skip, hsame, hsize, hc]

variable {src s : Text} {c : Char}

theorem pos_before (h : s <:+ src) : src.bytes.drop (before src s).pos = s.bytes := by
  obtain ⟨p, rfl⟩ := h
  rw [before, Text.upTo_append, behind, Text.bytes_append, ← Text.length_bytes, List.drop_left]

theorem ahead_before (h : s <:+ src) : (before src s).ahead src = .ok s.bytes := by
  have hpos : (before src s).pos ≤ src.bytes.length := by
    obtain ⟨p, rfl⟩ := h
    rw [before, Text.upTo_append, behind, Text.length_bytes, Text.byteSize_append]
    exact Nat.le_add_right _ _
  rw [ahead, if_pos hpos, pos_before h]

theorem peek_eq (cur : Cursor) (ahead : Nat) :
    cur.peek src ahead = (src.bytes.drop cur.pos)[ahead]? := by
  rw [peek, List.getElem?_drop]

theorem peek_before (h : s <:+ src) (ahead : Nat) :
    (before src s).peek src ahead = s.bytes[ahead]? := by
  rw [peek_eq, pos_before h]

theorem peek_nil (h : [] <:+ src) : (before src []).peek src 0 = none := by rw [peek_before h]; rfl

theorem peek_cons (h : c :: s <:+ src) (hc : c.toNat < 0x80) :
    (before src (c :: s)).peek src 0 = some c := by
  rw [peek_before h, Text.bytes_cons_ascii hc]
  rfl

theorem sees_before (h : s <:+ src) {mark : Text} (hmark : IsAscii mark) :
    (before src s).sees src mark = mark.isPrefixOf s := by
  rw [sees, pos_before h, Text.isPrefixOf_bytes hmark]

theorem sees_of_high {cur : Cursor} {b m : Char} (hb : cur.peek src 0 = some b)
    (hhigh : 0x80 ≤ b.toNat)
    (hm : m.toNat < 0x80) (mark : Text) : cur.sees src (m :: mark) = false := by
  rw [peek_eq, ← List.head?_eq_getElem?] at hb
  obtain ⟨bs, hbs⟩ := List.head?_eq_some_iff.1 hb
  have hne : (m == b) = false := beq_eq_false_iff_ne.2 (by rintro rfl; omega)
  rw [sees, hbs, List.isPrefixOf, hne]
  rfl

theorem before_of_append (p : Text) : before (p ++ s) s = behind p := by
    rw [before, Text.upTo_append]

theorem bump_before (h : c :: s <:+ src) (hc : c.toNat < 0x80) :
    (before src (c :: s)).bump src = .ok (before src s) := by
  rw [bump, peek_cons h hc]
  obtain ⟨p, rfl⟩ := h
  have hnext : before (p ++ c :: s) s = behind (p ++ [c]) := by
    rw [List.append_cons, before_of_append]
  rw [hnext, before_of_append, behind_append_singleton, Text.utf8Size_of_ascii hc]
  rfl

theorem bumps_before {mark : Text} (h : mark ++ s <:+ src) (hmark : IsAscii mark) :
    (before src (mark ++ s)).bumps src mark.length = .ok (before src s) := by
  induction mark with
  | nil => rfl
  | cons m mark ih =>
    obtain ⟨hm, hrest⟩ := List.forall_mem_cons.1 hmark
    rw [List.cons_append] at h ⊢
    rw [List.length_cons, bumps, bump_before h hm]
    exact ih ((List.suffix_cons m _).trans h) hrest

theorem cut_append (front part back : Text) :
    cut (front ++ (part ++ back)) (Text.byteSize front) (Text.byteSize front + Text.byteSize part) =
      .ok part := by
  rw [cut, Text.slice?_append]

theorem cut_front (front back : Text) :
    cut (front ++ back) 0 (Text.byteSize front) = .ok front := by
  have := cut_append [] front back
  rwa [List.nil_append, Text.byteSize, Nat.zero_add] at this

theorem cut_back (front back : Text) :
    cut (front ++ back) (Text.byteSize front) (Text.byteSize (front ++ back)) = .ok back := by
  have := cut_append front back []
  rwa [List.append_nil, ← Text.byteSize_append] at this

theorem cut_before {part rest : Text} (h : part ++ rest <:+ src) :
    cut src (before src (part ++ rest)).pos (before src rest).pos = .ok part := by
  obtain ⟨p, rfl⟩ := h
  have hrest : before (p ++ (part ++ rest)) rest = behind (p ++ part) := by
    rw [← List.append_assoc, before_of_append]
  rw [before_of_append, hrest, behind, behind, Text.byteSize_append]
  exact cut_append p part rest

theorem place_before (h : s <:+ src) :
    (before src s).place src = .ok (Place.start.advance (src.upTo s)) := by
  obtain ⟨p, rfl⟩ := h
  have hline := Layout.beforeLastLine_append_lastLine p
  have hcut : cut (p ++ s) (Text.byteSize (Layout.beforeLastLine p)) (Text.byteSize p) =
      .ok (Text.lastLine p) := by
    have := cut_append (Layout.beforeLastLine p) (Text.lastLine p) s
    rwa [← List.append_assoc, ← Text.byteSize_append, hline] at this
  have hplace :
      Place.start.advance p =
        ⟨Text.byteSize p, 1 + p.count '\n', (Text.lastLine p).length + 1⟩ := by
    rw [show Place.start.advance p = ⟨(Place.start.advance p).offset, (Place.start.advance p).line,
      (Place.start.advance p).column⟩ from rfl, Place.advance_offset, Place.advance_line,
        Place.advance_column,
      Place.start, Nat.zero_add, Nat.add_comm _ 1]
  rw [before_of_append, Text.upTo_append, place, behind, hplace]
  simp only [hcut]
  rfl

theorem bump_of_high {cur : Cursor} {b : Char} (hb : cur.peek src 0 = some b)
    (hhigh : 0x80 ≤ b.toNat) :
    cur.bump src = .ok (cur.skip 1) := by
  have hne : b ≠ '\n' := by
    rintro rfl
    exact absurd hhigh (by decide)
  rw [bump, hb]
  simp only [if_neg hne]
  rfl

theorem pass_bytes {α : Type} {loop : Nat → Cursor → Except Halt α}
    (hloop : ∀ n cur b, cur.peek src 0 = some b → 0x80 ≤ b.toNat →
      loop (n + 1) cur = cur.bump src >>= loop n)
    {bs more : List Char} (hbs : ∀ b ∈ bs, 0x80 ≤ b.toNat) {cur : Cursor}
    (hcur : src.bytes.drop cur.pos = bs ++ more)
    (n : Nat) : loop (n + bs.length) cur = loop n (cur.skip bs.length) := by
  induction bs generalizing cur with
  | nil => rfl
  | cons b bs ih =>
    obtain ⟨hb, hbs⟩ := List.forall_mem_cons.1 hbs
    have hpeek : cur.peek src 0 = some b := by rw [peek_eq, hcur]; rfl
    have hnext : src.bytes.drop (cur.skip 1).pos = bs ++ more := by
      rw [skip, ← List.drop_drop, hcur]
      rfl
    rw [List.length_cons, ← Nat.add_assoc, hloop _ _ b hpeek hb, bump_of_high hpeek hb]
    refine (ih hbs hnext).trans ?_
    rw [skip, skip, skip, Nat.add_assoc, Nat.add_comm 1]

theorem before_skip (h : c :: s <:+ src) (hc : 0x80 ≤ c.toNat) :
    (before src (c :: s)).skip c.utf8Size = before src s := by
  have hne : c ≠ '\n' := by
    rintro rfl
    exact absurd hc (by decide)
  obtain ⟨p, rfl⟩ := h
  have hnext : before (p ++ c :: s) s = behind (p ++ [c]) := by
    rw [List.append_cons, before_of_append]
  rw [hnext, before_of_append, behind_append_singleton, if_neg hne]

theorem pass_rest {α : Type} {loop : Nat → Cursor → Except Halt α}
    (hloop : ∀ n cur b, cur.peek src 0 = some b → 0x80 ≤ b.toNat →
      loop (n + 1) cur = cur.bump src >>= loop n)
    (h : c :: s <:+ src) (hc : 0x80 ≤ c.toNat) (n : Nat) :
    loop (n + (c.utf8Size - 1)) ((before src (c :: s)).skip 1) = loop n (before src s) := by
  obtain ⟨b, bs, hb, -, hhigh⟩ := Text.exists_bytes_of_high hc
  have hlen : c.utf8Size = bs.length + 1 := by
    rw [← Text.length_bytes_singleton, hb, List.length_cons]
  have hdrop : src.bytes.drop ((before src (c :: s)).skip 1).pos = bs ++ s.bytes := by
    rw [skip, ← List.drop_drop, pos_before h, Text.bytes_cons, hb]
    rfl
  have hend : ((before src (c :: s)).skip 1).skip bs.length = before src s := by
    rw [← before_skip h hc, hlen, skip, skip, skip, Nat.add_assoc, Nat.add_comm 1]
  rw [hlen, Nat.add_sub_cancel, pass_bytes hloop hhigh hdrop, hend]

theorem peek_high (h : c :: s <:+ src) (hc : 0x80 ≤ c.toNat) :
    ∃ b, (before src (c :: s)).peek src 0 = some b ∧ 0x80 ≤ b.toNat := by
  obtain ⟨b, bs, hb, hhigh, -⟩ := Text.exists_bytes_of_high hc
  refine ⟨b, ?_, hhigh⟩
  rw [peek_before h, Text.bytes_cons, hb]
  rfl

theorem pass {α : Type} {loop : Nat → Cursor → Except Halt α}
    (hloop : ∀ n cur b, cur.peek src 0 = some b → 0x80 ≤ b.toNat →
      loop (n + 1) cur = cur.bump src >>= loop n)
    (h : c :: s <:+ src) (hc : 0x80 ≤ c.toNat) (n : Nat) :
    loop (n + c.utf8Size) (before src (c :: s)) = loop n (before src s) := by
  obtain ⟨b, hb, hhigh⟩ := peek_high h hc
  have hpos := c.utf8Size_pos
  rw [show n + c.utf8Size =
    n + (c.utf8Size - 1) + 1 by omega, hloop _ _ b hb hhigh, bump_of_high hb hhigh]
  exact pass_rest hloop h hc n

end Cursor

end CaseAccessors
