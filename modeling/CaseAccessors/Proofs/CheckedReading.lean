import CaseAccessors.Proofs.CheckedFields
import CaseAccessors.Proofs.CheckedLexing
import CaseAccessors.Proofs.InsertedText

/-! Reading declarations by index. The walk over the body of an enum goes on where the one over a
clause or over bindings ends, and that is behind their keyword and not behind the body. Each check
of each step passes, so what comes of a text is what reading lists of tokens gives. -/
namespace CaseAccessors

namespace Checked

def less (n k : Nat) : Except Halt Nat := if k ≤ n then .ok (n - k) else .error .underflow

def lineIndent (src : Text) (offset : Nat) : Except Halt Text := do
  let front ← Cursor.cut src 0 offset
  let line ← Cursor.cut src (Text.byteSize (Layout.beforeLastLine front)) (Text.byteSize src)
  Cursor.cut line 0 (← less (Text.byteSize line) (Text.byteSize (line.dropWhile Text.isIndent)))

namespace Reader

def sees (r : Reader) (stop i : Nat) (c : Char) : Except Halt Bool := do
  if i < stop then return (← elementAt r.tokens i).isPunct c else return false

/-- The fields of the payload that begins at an index, and the index behind it. -/
def payload (r : Reader) (stop i : Nat) : Except Halt (List Field × Nat) := do
  if ← r.sees stop i '(' then
    let close := (← elementAt r.matching i).getD stop
    return (← r.fields (i + 1) close, close + 1)
  else return ([], i)

def valueEnd (r : Reader) (stop line : Nat) : Nat → Nat → Except Halt Nat
  | 0, _ => .error .astray
  | n + 1, i =>
    if i < stop then do
      let t ← elementAt r.tokens i
      if t.place.line == line && !t.isPunct ',' && !t.isPunct ';' && !t.startsDeclaration then
        valueEnd r stop line n (i + 1)
      else return i
    else return i

def rawValue (r : Reader) (stop i : Nat) : Except Halt Nat := do
  if ← r.sees stop i '=' then
    r.valueEnd stop (← elementAt r.tokens i).place.line r.rounds (i + 1)
  else return i

def clause (r : Reader) (keyword stop : Nat) : Nat → Nat → Except Halt (List Case × Nat)
  | 0, _ => .error .astray
  | n + 1, i =>
    if i < stop then do
      let name ← elementAt r.tokens i
      if name.kind = .ident then
        let (fields, behind) ← r.payload stop (i + 1)
        let behind ← r.rawValue stop behind
        if ← r.sees stop behind ',' then
          let (cases, next) ← clause r keyword stop n (behind + 1)
          return (⟨name.name, fields⟩ :: cases, next)
        else return ([⟨name.name, fields⟩], behind)
      else return ([], i)
    else do
      let t ← elementAt r.tokens keyword
      .error (.source (.ofPlace (.unexpectedEnd .caseClause) t.place))

def moreBindings (r : Reader) (stop : Nat) : Nat → Nat → Except Halt (List Text × Nat)
  | 0, _ => .error .astray
  | n + 1, i =>
    if i < stop then do
      let t ← elementAt r.tokens i
      if t.isPunct '(' || t.isPunct '[' then moreBindings r stop n (← r.skipGroup stop i)
      else if endsBindings t then return ([], i)
      else
        -- what is ahead of a comma may stand behind the end
        match nextBinding? t (r.tokens.drop (i + 1)) with
        | some name => do
          let (names, next) ← moreBindings r stop n (i + 2)
          return (name :: names, next)
        | none => moreBindings r stop n (i + 1)
    else return ([], i)

def bindings (r : Reader) (stop i : Nat) : Except Halt (List Text × Nat) := do
  if i < stop then
    let t ← elementAt r.tokens i
    if t.kind = .ident then
      let (names, next) ← r.moreBindings stop r.rounds (i + 1)
      return (t.name :: names, next)
    else r.moreBindings stop r.rounds i
  else return ([], i)

def body (r : Reader) (stop : Nat) : Nat → Nat → Except Halt Body
  | 0, _ => .error .astray
  | n + 1, i =>
    if i < stop then do
      let t ← elementAt r.tokens i
      if t.opener?.isSome then body r stop n (← r.skipGroup stop i)
      else if t.isWord "case" then
        let (cases, next) ← r.clause i stop r.rounds (i + 1)
        return (← body r stop n (← within i stop next)).addCases cases
      else if t.bindsNames then
        let (names, next) ← r.bindings stop (i + 1)
        return (← body r stop n (← within i stop next)).addMembers names
      else return (← body r stop n (i + 1)).addMembers (Body.namedMember t (r.tokens.drop (i + 1)))
    else return .empty

def brace (r : Reader) (keyword : Token) : Nat → Nat → Except Halt Nat
  | 0, _ => .error .astray
  | n + 1, i =>
    if i < r.tokens.length then do
      if (← elementAt r.tokens i).isPunct '{' then return i else brace r keyword n (i + 1)
    else .error (.source (.ofPlace (.unexpectedEnd .enumDeclaration) keyword.place))

def access (r : Reader) (i : Nat) : Except Halt (Option Access) := do
  let before ← span r.tokens 0 i
  return (before.reverse.takeWhile (·.isWordIn modifierWords)).findSome? fun t =>
    Access.ofKeyword? t.text

def memberIndent (r : Reader) (opening : Token) (start stop : Nat) : Except Halt (Option Text) := do
  match (← span r.tokens start stop).find? fun t => opening.place.line < t.place.line with
  | some t => return some (← lineIndent r.src t.place.offset)
  | none => return none

def enumeration (r : Reader) (i : Nat) : Except Halt Enumeration := do
  let keyword ← elementAt r.tokens i
  let name ← elementAt r.tokens (i + 1)
  let open' ← r.brace keyword r.rounds (i + 2)
  let opening ← elementAt r.tokens open'
  match ← elementAt r.matching open' with
  | none => .error .unclosed
  | some close =>
    let contents ← r.body close r.rounds (open' + 1)
    let memberIndent ← r.memberIndent opening (open' + 1) close
    let access ← r.access i
    let closing ← elementAt r.tokens close
    let indent ← lineIndent r.src keyword.place.offset
    return ⟨⟨name.name, access, contents.members.map .existing, contents.cases⟩,
      closing.place.offset, memberIndent,
      indent⟩

def declares (r : Reader) (i : Nat) : Except Halt Bool := do
  let keyword ← elementAt r.tokens i
  let dotted ← if i = 0 then pure false else pure ((← elementAt r.tokens (← lower i)).isPunct '.')
  return keyword.isWord "enum" && r.tokens[i + 1]?.any (·.kind == .ident) && !dotted

def enumerations (r : Reader) : List Nat → Except Halt (List Enumeration)
  | [] => .ok []
  | i :: is => do
    if ← r.declares i then
      let e ← r.enumeration i
      return e :: (← enumerations r is)
    else enumerations r is

end Reader

def readEnumerations (src : Text) : Except Halt (List Enumeration) := do
  let tokens ← Checked.tokenize src
  let matching ← Checked.matchDelimiters tokens
  (⟨src, tokens, matching⟩ : Reader).enumerations (List.range tokens.length)

end Checked

open Checked

theorem lineIndent_append (front back : Text) :
    Checked.lineIndent (front ++ back) (Text.byteSize front) =
      .ok (((front ++ back).lineIndent? (Text.byteSize front)).getD []) := by
  have hline := Layout.beforeLastLine_append_lastLine front
  have hback := Cursor.cut_back (Layout.beforeLastLine front) (Text.lastLine front ++ back)
  rw [← List.append_assoc, hline] at hback
  have hwidth : ∀ s : Text, less (Text.byteSize s) (Text.byteSize (s.dropWhile Text.isIndent)) =
      .ok (Text.byteSize (s.takeWhile Text.isIndent)) := fun s => by
    have hsize : Text.byteSize s =
        Text.byteSize (s.takeWhile Text.isIndent) + Text.byteSize (s.dropWhile Text.isIndent) := by
      rw [← Text.byteSize_append, List.takeWhile_append_dropWhile]
    rw [less, if_pos (by omega)]
    exact congrArg Except.ok (by omega)
  have hindent : ∀ s : Text, Cursor.cut s 0 (Text.byteSize (s.takeWhile Text.isIndent)) =
      .ok (s.takeWhile Text.isIndent) := fun s => by
    have := Cursor.cut_front (s.takeWhile Text.isIndent) (s.dropWhile Text.isIndent)
    rwa [List.takeWhile_append_dropWhile] at this
  rw [Checked.lineIndent, Text.lineIndent?, Text.cutAt?_byteSize, Cursor.cut_front]
  simp only [bind, Except.bind, hback, hwidth, hindent]
  rfl

namespace Checked.Reader

variable {r : Reader} {i start stop n : Nat} {t : Token} {ts : List Token}

/-- What a reader of lists gives, with the index where what is left begins. -/
def landing {α : Type} (stop : Nat) (x : Except SourceError (α × List Token)) :
    Except Halt (α × Nat) :=
  (x.map fun p => (p.1, stop - p.2.length)).mapError .source

theorem sees_eq (h : r.Ahead i stop ts) (c : Char) :
    r.sees stop i c = .ok (ts.head?.any (·.isPunct c)) := by
  cases ts with
  | nil =>
    obtain rfl := h.eq_stop
    rw [sees, if_neg (Nat.lt_irrefl i)]
    rfl
  | cons t ts =>
    rw [sees, if_pos h.lt_stop, h.elementAt_eq]
    rfl

theorem payload_eq (hr : r.Ready) (h : r.Ahead i stop ts) :
    r.payload stop i =
      landing stop ((readFields (payloadTokens ts)).map fun fs => (fs, afterPayload ts)) := by
  have hlen := h.stands.length_eq
  have hhere : i = stop - ts.length := by omega
  have hnone : readFields [] = .ok [] := by
    rw [readFields, splitFields, items]
    rfl
  rw [payload, sees_eq h]
  cases ts with
  | nil =>
    rw [payloadTokens, afterPayload, hnone]
    exact congrArg (fun i => Except.ok ([], i)) hhere
  | cons t ts =>
    rw [payloadTokens, afterPayload, List.head?_cons, Option.any_some]
    by_cases ht : t.isPunct '(' = true
    · have hopener := Token.opener?_of_kind (c := '(') rfl (Token.isPunct_iff.1 ht)
      obtain ⟨g, hopens⟩ := h.exists_opens hr hopener
      have hfields := fields_eq hr hopens.inside.stands hopens.nested
      have hbehind : i + 1 + g.inside.length + 1 = stop - g.behind.length := by
        have := hopens.stop_eq
        omega
      rw [if_pos ht, if_pos ht, hopens.group]
      simp only [ht, if_true, bind, Except.bind, hopens.matching, Option.getD_some, hfields,
        hbehind]
      cases readFields g.inside <;> rfl
    · rw [if_neg ht, if_neg ht, hnone]
      simp only [ht, bind, Except.bind]
      exact congrArg (fun i => Except.ok ([], i)) hhere

theorem valueEnd_eq (h : r.Ahead i stop ts) (hn : ts.length < n) (line : Nat) :
    r.valueEnd stop line n i = .ok (stop - (ts.dropWhile fun u =>
      u.place.line == line && !u.isPunct ',' && !u.isPunct ';' &&
          !u.startsDeclaration).length) := by
  induction ts generalizing i n with
  | nil =>
    obtain ⟨n, rfl⟩ := Nat.exists_eq_add_of_le' (show 1 ≤ n from hn)
    obtain rfl := h.eq_stop
    rw [valueEnd, if_neg (Nat.lt_irrefl i)]
    rfl
  | cons t ts ih =>
    have hlen := h.stands.length_eq
    rw [List.length_cons] at hn
    obtain ⟨n, rfl⟩ := Nat.exists_eq_add_of_le' (show 1 ≤ n by omega)
    rw [valueEnd, if_pos h.lt_stop, h.elementAt_eq, List.dropWhile_cons]
    simp only [bind, Except.bind]
    split
    · exact ih h.tail (by omega)
    · exact congrArg Except.ok (by omega)

theorem rawValue_eq (h : r.Ahead i stop ts) :
    r.rawValue stop i = .ok (stop - (afterRawValue ts).length) := by
  have hlen := h.stands.length_eq
  rw [rawValue, sees_eq h]
  cases ts with
  | nil => exact congrArg Except.ok hlen
  | cons t ts =>
    rw [afterRawValue, List.head?_cons, Option.any_some]
    by_cases ht : t.isPunct '=' = true
    · rw [if_pos ht]
      simp only [ht, if_true, bind, Except.bind, h.elementAt_eq]
      exact valueEnd_eq h.tail h.tail.length_lt_rounds _
    · rw [if_neg ht]
      simp only [ht, bind, Except.bind]
      exact congrArg Except.ok (by omega)

theorem clause_eq (hr : r.Ready) {k : Nat} {keyword : Token}
    (hk : elementAt r.tokens k = .ok keyword) (h : r.Ahead i stop ts) (hn : ts.length < n) :
    r.clause k stop n i = landing stop (readClause keyword ts) := by
  induction n generalizing i ts with
  | zero => omega
  | succ n ih =>
    have hlen := h.stands.length_eq
    cases ts with
    | nil =>
      obtain rfl := h.eq_stop
      rw [clause, if_neg (Nat.lt_irrefl i), hk, readClause]
      rfl
    | cons t ts =>
      rw [clause, if_pos h.lt_stop, h.elementAt_eq, readClause_cons]
      simp only [bind, Except.bind]
      by_cases ht : t.kind = .ident
      · rw [if_pos ht, if_pos ht, payload_eq hr h.tail]
        cases readFields (payloadTokens ts) with
        | error e => rfl
        | ok fields =>
          have hpayload := h.tail.of_suffix (afterPayload_suffix ts)
          have hvalue := hpayload.of_suffix (afterRawValue_suffix (afterPayload ts))
          have hsuffix := (afterRawValue_suffix (afterPayload ts)).trans (afterPayload_suffix ts)
          simp only [landing, Except.map, Except.mapError, rawValue_eq hpayload, sees_eq hvalue]
          cases hafter : afterRawValue (afterPayload ts) with
          | nil => rfl
          | cons comma more =>
            rw [hafter] at hvalue hsuffix
            have hle := hsuffix.length_le
            rw [List.length_cons] at hle hn
            by_cases hcomma : comma.isPunct ',' = true
            · simp only [List.head?_cons, Option.any_some, hcomma, if_true,
                ih hvalue.tail (by omega), landing]
              cases readClause keyword more <;> rfl
            · simp only [List.head?_cons, Option.any_some, hcomma]
              rfl
      · have hhere : i = stop - (t :: ts).length := by omega
        rw [if_neg ht, if_neg ht]
        exact congrArg (fun i => Except.ok ([], i)) hhere

def EndsAtBrace (r : Reader) (stop : Nat) : Prop := ∃ k : Token, r.tokens[stop]? = some k ∧
    k.kind = .punct '\x7d'

theorem nextBinding?_append {k : Token} (hk : k.kind = .punct '\x7d') (comma : Token)
    (ts back : List Token) :
    nextBinding? comma (ts ++ k :: back) = nextBinding? comma ts := by
  have hsign : k.isPunct ':' = false ∧ k.isPunct '=' = false := by simp [Lexeme.isPunct, hk]
  cases ts with
  | nil => cases back <;> simp [nextBinding?, hk]
  | cons name ts =>
    cases ts with
    | nil => simp [nextBinding?, hsign]
    | cons => rfl

theorem namedMember_append {k : Token} (hk : k.kind = .punct '\x7d') (word : Token)
    (ts back : List Token) :
    Body.namedMember word (ts ++ k :: back) = Body.namedMember word ts := by
  cases ts with
  | nil => simp [Body.namedMember, hk]
  | cons => rfl

theorem Ahead.exists_drop (h : r.Ahead i stop ts) (hstop : r.EndsAtBrace stop) :
    ∃ k back, r.tokens.drop i = ts ++ k :: back ∧ k.kind = .punct '\x7d' := by
  obtain ⟨k, hk, hkind⟩ := hstop
  obtain ⟨front, back, htokens, rfl, rfl⟩ := h.stands
  rw [htokens, ← List.append_assoc, ← List.length_append,
    List.getElem?_append_right (Nat.le_refl _), Nat.sub_self, ← List.head?_eq_getElem?] at hk
  obtain ⟨back, rfl⟩ := List.head?_eq_some_iff.1 hk
  exact ⟨k, back, by rw [htokens, List.drop_left], hkind⟩

theorem moreBindings_eq (hr : r.Ready) (hstop : r.EndsAtBrace stop) (h : r.Ahead i stop ts)
    (hn : ts.length < n) :
    r.moreBindings stop n i =
      .ok ((readMoreBindings ts).1, stop - (readMoreBindings ts).2.length) := by
  induction n generalizing i ts with
  | zero => omega
  | succ n ih =>
    have hlen := h.stands.length_eq
    have hhere : i = stop - ts.length := by omega
    cases ts with
    | nil =>
      obtain rfl := h.eq_stop
      rw [moreBindings, if_neg (Nat.lt_irrefl i), readMoreBindings]
      rfl
    | cons t ts =>
      rw [List.length_cons] at hn
      rw [moreBindings, if_pos h.lt_stop, h.elementAt_eq, readMoreBindings_cons]
      simp only [bind, Except.bind]
      by_cases hparen : (t.isPunct '(' || t.isPunct '[') = true
      · obtain ⟨c, hopener⟩ : ∃ c, t.opener? = some c := by
          rw [Bool.or_eq_true, Token.isPunct_iff, Token.isPunct_iff] at hparen
          obtain hkind | hkind := hparen
          · exact ⟨_, Token.opener?_of_kind rfl hkind⟩
          · exact ⟨_, Token.opener?_of_kind rfl hkind⟩
        obtain ⟨g, hopens⟩ := h.exists_opens hr hopener
        have hlt : g.behind.length < n := Nat.lt_of_lt_of_le hopens.length_behind (by omega)
        rw [if_pos hparen, if_pos hparen, hopens.skip, afterGroup, hopens.group]
        exact ih hopens.behind hlt
      rw [if_neg hparen, if_neg hparen]
      by_cases hends : endsBindings t = true
      · rw [if_pos hends, if_pos hends]
        exact congrArg (fun i => Except.ok ([], i)) hhere
      rw [if_neg hends, if_neg hends]
      obtain ⟨k, back, hdrop, hk⟩ := h.tail.exists_drop hstop
      rw [hdrop, nextBinding?_append hk]
      cases ts with
      | nil => exact ih h.tail (by omega)
      | cons u us =>
        cases nextBinding? t (u :: us) with
        | none => exact ih h.tail (by omega)
        | some name =>
          rw [List.length_cons] at hn
          have hrest : r.moreBindings stop n (i + 2) = _ := ih h.tail.tail (by omega)
          simp only [hrest]
          rfl

theorem bindings_eq (hr : r.Ready) (hstop : r.EndsAtBrace stop) (h : r.Ahead i stop ts) :
    r.bindings stop i = .ok ((readBindings ts).1, stop - (readBindings ts).2.length) := by
  cases ts with
  | nil =>
    obtain rfl := h.eq_stop
    rw [bindings, if_neg (Nat.lt_irrefl i), readBindings]
    rfl
  | cons t ts =>
    have hmore := moreBindings_eq hr hstop h h.length_lt_rounds
    have hmore' := moreBindings_eq hr hstop h.tail h.tail.length_lt_rounds
    rw [bindings, if_pos h.lt_stop, h.elementAt_eq, readBindings]
    simp only [bind, Except.bind]
    split
    · rw [hmore']
      rfl
    · exact hmore

theorem within_eq (h : r.Ahead i stop (t :: ts)) {rest : List Token} (hrest : rest <:+ ts) :
    within i stop (stop - rest.length) = .ok (stop - rest.length) := by
  have hlen := h.stands.length_eq
  have hle := hrest.length_le
  rw [List.length_cons] at hlen
  exact if_pos (by omega)

theorem body_eq (hr : r.Ready) (hstop : r.EndsAtBrace stop) (h : r.Ahead i stop ts)
    (hn : ts.length < n) :
    r.body stop n i = (Body.read ts).mapError .source := by
  induction n generalizing i ts with
  | zero => omega
  | succ n ih =>
    cases ts with
    | nil =>
      obtain rfl := h.eq_stop
      rw [body, if_neg (Nat.lt_irrefl i), Body.read]
      rfl
    | cons t ts =>
      rw [List.length_cons] at hn
      have hsuffix := List.suffix_cons t ts
      rw [body, if_pos h.lt_stop, h.elementAt_eq, Body.read_cons]
      simp only [bind, Except.bind]
      by_cases hopener : t.opener?.isSome = true
      · obtain ⟨c, hc⟩ := Option.isSome_iff_exists.1 hopener
        obtain ⟨g, hopens⟩ := h.exists_opens hr hc
        have hlt : g.behind.length < n := Nat.lt_of_lt_of_le hopens.length_behind (by omega)
        rw [if_pos hopener, if_pos hopener, hopens.skip, afterGroup, hopens.group]
        exact ih hopens.behind hlt
      rw [if_neg hopener, if_neg hopener]
      by_cases hcase : t.isWord "case" = true
      · rw [if_pos hcase, if_pos hcase, clause_eq hr h.elementAt_eq h.tail h.tail.length_lt_rounds]
        cases hread : readClause t ts with
        | error e => rfl
        | ok p =>
          obtain ⟨cases, rest⟩ := p
          have hrest := (declaredIn_of_readClause hread).1
          have hle := hrest.length_le
          simp only [landing, Except.map, Except.mapError, within_eq h hrest,
            ih (h.of_suffix (hrest.trans hsuffix)) (by omega)]
          cases Body.read rest <;> rfl
      rw [if_neg hcase, if_neg hcase]
      by_cases hbinds : t.bindsNames = true
      · have hrest := readBindings_suffix ts
        have hle := hrest.length_le
        rw [if_pos hbinds, if_pos hbinds, bindings_eq hr hstop h.tail]
        simp only [within_eq h hrest, ih (h.of_suffix (hrest.trans hsuffix)) (by omega)]
        cases Body.read (readBindings ts).2 <;> rfl
      · obtain ⟨k, back, hdrop, hk⟩ := h.tail.exists_drop hstop
        rw [if_neg hbinds, if_neg hbinds, hdrop, namedMember_append hk, ih h.tail (by omega)]
        cases Body.read ts <;> rfl

theorem brace_eq (keyword : Token) (h : StandsAt r.tokens i r.tokens.length ts)
    (hn : ts.length < n) :
    r.brace keyword n i = match ts.dropWhile fun t => !t.isPunct '{' with
      | [] => .error (.source (.ofPlace (.unexpectedEnd .enumDeclaration) keyword.place))
      | rest => .ok (r.tokens.length - rest.length) := by
  induction ts generalizing i n with
  | nil =>
    obtain ⟨n, rfl⟩ := Nat.exists_eq_add_of_le' (show 1 ≤ n from hn)
    have hend : i = r.tokens.length := h.length_eq
    rw [brace, if_neg (by omega)]
    rfl
  | cons t ts ih =>
    have hlen := h.length_eq
    rw [List.length_cons] at hn hlen
    obtain ⟨n, rfl⟩ := Nat.exists_eq_add_of_le' (show 1 ≤ n by omega)
    rw [brace, if_pos (by omega), elementAt_eq h.getElem?]
    simp only [bind, Except.bind]
    by_cases ht : t.isPunct '{' = true
    · rw [if_pos ht, List.dropWhile_cons_of_neg (by simp [ht])]
      exact congrArg Except.ok (by rw [List.length_cons]; omega)
    · rw [if_neg ht, List.dropWhile_cons_of_pos (by simpa using ht)]
      exact ih h.tail (by omega)

theorem lineIndent_eq (hr : r.Ready) (ht : t ∈ r.tokens) :
    Checked.lineIndent r.src t.place.offset = .ok ((r.src.lineIndent? t.place.offset).getD []) := by
  obtain ⟨front, back, htokens⟩ := List.append_of_mem ht
  obtain ⟨tail, hsrc⟩ := hr.src_eq htokens
  rw [sourceBehind_cons, List.append_assoc, ← List.append_assoc] at hsrc
  rw [hr.offset_eq htokens, hsrc]
  exact lineIndent_append _ _

theorem memberIndent_eq (hr : r.Ready) (opening : Token) (h : StandsAt r.tokens i stop ts) :
    r.memberIndent opening i stop = .ok ((ts.find? fun t => opening.place.line < t.place.line).map
      fun t => (r.src.lineIndent? t.place.offset).getD []) := by
  rw [memberIndent, h.span_eq]
  simp only [bind, Except.bind]
  cases hfind : ts.find? fun t => decide (opening.place.line < t.place.line) with
  | none => rfl
  | some t =>
    have ht : t ∈ r.tokens := by
      obtain ⟨front, back, htokens, -⟩ := h
      rw [htokens]
      simp [List.mem_of_find?_eq_some hfind]
    simp only [lineIndent_eq hr ht]
    rfl

theorem enumeration_eq (hr : r.Ready) (hword : WellNested (delimiters r.tokens)) {s : Site}
    (hs : r.tokens = s.before.reverse ++ s.keyword :: s.name :: s.behind) :
    r.enumeration s.before.length = (s.enumeration r.src).mapError .source := by
  have hkeyword : elementAt r.tokens s.before.length = .ok s.keyword := elementAt_eq (by simp [hs])
  have hname : elementAt r.tokens (s.before.length + 1) = .ok s.name := elementAt_eq (by simp [hs])
  have hbefore : StandsAt r.tokens 0 s.before.length s.before.reverse :=
    ⟨[], s.keyword :: s.name :: s.behind, hs, rfl, by simp⟩
  have hbehind : r.Ahead (s.before.length + 2) r.tokens.length s.behind := by
    refine ⟨⟨s.before.reverse ++ [s.keyword, s.name], [], by simp [hs], by simp, ?_⟩,
      s.before.reverse ++ [s.keyword, s.name], ?_⟩
    · simp only [hs, List.length_append, List.length_reverse, List.length_cons]
      omega
    · have hbalanced := balanced_iff_wellNested.2 hword
      rw [hs] at hbalanced
      simpa using hbalanced
  have hindent := lineIndent_eq hr (t := s.keyword) (by simp [hs])
  rw [enumeration, hkeyword, hname, Site.enumeration, Site.body]
  simp only [bind, Except.bind, brace_eq s.keyword hbehind.stands hbehind.length_lt_rounds]
  cases hdrop : s.behind.dropWhile fun t => !t.isPunct '{' with
  | nil => rfl
  | cons opening rest =>
    have hopening : opening.isPunct '{' = true := by
      have := List.head?_dropWhile_not (fun t : Token => !t.isPunct '{') s.behind
      rw [hdrop] at this
      simpa using this
    have hopener := Token.opener?_of_kind (c := '{') rfl (Token.isPunct_iff.1 hopening)
    have hsuffix : opening :: rest <:+ s.behind := hdrop ▸ List.dropWhile_suffix _
    have hahead := hbehind.of_suffix hsuffix
    dsimp only
    generalize r.tokens.length - (opening :: rest).length = i at hahead ⊢
    obtain ⟨g, hopens⟩ := hahead.exists_opens hr hopener
    have hinside := hopens.inside
    have hbody :=
      body_eq hr ⟨g.closing, hopens.closing, Token.kind_of_closer? hopens.closer⟩ hinside
      hinside.length_lt_rounds
    simp only [hahead.elementAt_eq, hopens.matching, hopens.group, hbody]
    cases Body.read g.inside with
    | error e => rfl
    | ok contents =>
      simp only [Except.mapError, memberIndent_eq hr opening hinside.stands, access,
        hbefore.span_eq, bind, Except.bind, elementAt_eq hopens.closing, hindent,
        List.reverse_reverse]
      rfl

theorem declares_eq {front : List Token} (h : r.tokens = front ++ t :: ts) :
    r.declares front.length = .ok (t.isWord "enum" && ts.head?.any (·.kind == .ident) &&
      !front.reverse.head?.any (·.isPunct '.')) := by
  have hkeyword : elementAt r.tokens front.length = .ok t := elementAt_eq (by simp [h])
  have hname : r.tokens[front.length + 1]? = ts.head? := by
    rw [h, List.getElem?_append_right (Nat.le_add_right _ 1), Nat.add_sub_cancel_left,
      List.getElem?_cons_succ, List.head?_eq_getElem?]
  rw [declares, hkeyword]
  simp only [bind, Except.bind, hname]
  obtain rfl | ⟨before, last, rfl⟩ := List.eq_nil_or_concat' front
  · rfl
  · have hlast : elementAt r.tokens before.length = .ok last := elementAt_eq (by simp [h])
    have hlower : lower (before ++ [last]).length = .ok before.length := by
      rw [List.length_append]
      rfl
    rw [if_neg (by simp), hlower, List.reverse_append]
    simp only [hlast]
    rfl

theorem enumerations_eq (hr : r.Ready) (hword : WellNested (delimiters r.tokens))
    {front : List Token} (h : r.tokens = front ++ ts) :
    r.enumerations (List.range' front.length ts.length) =
      ((Site.among front.reverse ts).mapM fun s :
        Site => s.enumeration r.src).mapError .source := by
  induction ts generalizing front with
  | nil =>
    simp only [Site.among, List.length_nil, List.range'_zero, enumerations, List.mapM_nil]
    rfl
  | cons t ts ih =>
    have hnext : r.tokens = (front ++ [t]) ++ ts := by simp [h]
    have hrest := ih hnext
    rw [List.length_append, List.length_singleton, List.reverse_append, List.reverse_singleton,
      List.singleton_append] at hrest
    rw [List.length_cons, List.range'_succ, enumerations, declares_eq h]
    simp only [bind, Except.bind, hrest]
    cases ts with
    | nil => simp [Site.among]
    | cons name behind =>
      rw [Site.among, List.head?_cons, Option.any_some]
      split
      · have hs : r.tokens = front.reverse.reverse ++ t :: name :: behind := by
          rw [List.reverse_reverse, h]
        have hread := enumeration_eq hr hword (s := ⟨front.reverse, t, name, behind⟩) hs
        rw [List.length_reverse] at hread
        rw [List.mapM_cons, hread]
        cases Site.enumeration r.src ⟨front.reverse, t, name, behind⟩ with
        | error e => rfl
        | ok e =>
          simp only [Except.mapError, bind, Except.bind]
          cases (Site.among (t :: front.reverse) (name :: behind)).mapM fun s : Site =>
            s.enumeration r.src <;> rfl
      · rfl

end Checked.Reader

/-- No step of reading goes astray. What is cut out of a source begins and ends between two of its
characters, no depth is lowered below zero, no index is past the end of the tokens or of the table,
each walk goes on behind where it was and not behind its end, and the brace of an enum has its
partner. For reading with all of this checked gives the tokens and the enums, or tells of the source
what is wrong with it. The offset told of an enum is that of a closing brace, and what is told of
indentation is made of spaces and tabs. -/
theorem readEnumerations_checked (src : Text) :
    Checked.tokenize src = (CaseAccessors.tokenize src).mapError .source ∧
      Checked.readEnumerations src = (CaseAccessors.readEnumerations src).mapError .source ∧
      ∀ enums, CaseAccessors.readEnumerations src = .ok enums → ∀ e ∈ enums,
        (∃ before behind, src = before ++ '\x7d' :: behind ∧ e.closeOffset = Text.byteSize before) ∧
          (∀ c ∈ e.indent, c = ' ' ∨ c = '\t') ∧ ∀ indent ∈ e.memberIndent, ∀ c ∈ indent, c = ' ' ∨
              c = '\t' := by
  refine ⟨tokenize_checked src, ?_, fun enums h e he => ?_⟩
  · rw [Checked.readEnumerations, tokenize_checked, CaseAccessors.readEnumerations]
    cases htokens : CaseAccessors.tokenize src with
    | error e => rfl
    | ok tokens =>
      simp only [Except.mapError, bind, Except.bind, matchDelimiters_checked,
        CaseAccessors.matchDelimiters]
      cases hcheck : checkDelimiters [] tokens with
      | error e => rfl
      | ok u =>
        have hr : Reader.Ready ⟨src, tokens, (List.range tokens.length).map (partner? tokens)⟩ :=
          ⟨htokens, rfl⟩
        have hread :=
          Reader.enumerations_eq hr (checkDelimiters_eq_ok_iff.1 hcheck)
          (List.nil_append tokens).symm
        rw [List.length_nil, ← List.range_eq_range'] at hread
        exact hread
  · obtain ⟨ps, rfl, hps, hbalanced, hsites⟩ := exists_of_readEnumerations h
    obtain ⟨s, hs, hread⟩ := hsites e he
    obtain ⟨as, bs, rfl, -, hclose⟩ := exists_closingBrace hps hbalanced hs hread
    obtain ⟨brace, g, b, -, -, rfl⟩ := Site.enumeration_eq_ok_iff.1 hread
    refine ⟨⟨Piece.textOf as, Piece.textOf bs, by simp [Piece.text], hclose⟩, ?_, ?_⟩
    · exact fun c hc => Text.isIndent_iff.1 (Text.isIndent_of_mem_lineIndent? hc)
    · intro indent hindent c hc
      obtain ⟨t, -, rfl⟩ := Option.map_eq_some_iff.1 hindent
      exact Text.isIndent_iff.1 (Text.isIndent_of_mem_lineIndent? hc)

/-- A name outside ASCII, an interpolation, and a raw value that ends inside of a group. -/
example : (Checked.readEnumerations "enum É \x7b case a = f(\"\\(1)\", c) \x7d".toList).toOption.map
    (·.map fun e => (e.decl.cases.map (·.name), e.closeOffset)) =
    some [(["a".toList, "c".toList], 32)] := by
  decide +kernel

end CaseAccessors
