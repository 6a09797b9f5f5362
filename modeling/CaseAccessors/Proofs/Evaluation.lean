import CaseAccessors.Proofs.BodyEnd
import Mathlib.Data.List.Nodup

/-! What accessors do. Values of an enum are evaluated through the getters and setters that their
declaration lacked: reading gives the payload of the accessor's own case, writing builds that case
from a payload, and reading and writing undo each other. -/
namespace CaseAccessors

variable {α : Type}

abbrev Labelled (α : Type) := List (Option Text × α)

/-- A value of an enum: the active case, and its arguments. -/
structure Value (α : Type) where
  caseName : Text
  args : Labelled α
  deriving DecidableEq, Repr

/-- What an accessor hands out, and is set to. -/
inductive Payload (α : Type) where
  | unit
  | one (a : α)
  | tuple (elements : Labelled α)
  deriving DecidableEq, Repr

/-- What evaluating an accessor can trip over. -/
inductive Mishap where
  | unboundName (name : Text)
  | noArgument (index : Nat)
  | noElement (index : Nat)
  /-- A part of the new value is asked for that a payload of its shape has not got. -/
  | shape
  | noSetter
  deriving DecidableEq, Repr

namespace Case

def labels (c : Case) : List (Option Text) := c.fields.map Field.label

def construct (c : Case) (vs : List α) : Value α := ⟨c.name, c.labels.zip vs⟩

def content (c : Case) : List α → Payload α
  | [] => .unit
  | [v] => .one v
  | vs => .tuple (c.labels.zip vs)

end Case

namespace Getter

def lookup (g : Getter) (args : Labelled α) (name : Text) : Except Mishap α :=
  match g.bindings.findIdx? (· == name) with
  | none => .error (.unboundName name)
  | some i =>
    match args[i]? with
    | some (_, v) => .ok v
    | none => .error (.noArgument i)

def element (g : Getter) (args : Labelled α) (e : Option Text × Text) :
    Except Mishap (Option Text × α) :=
  (g.lookup args e.2).map fun v => (e.1, v)

/-- Nothing is read from a value of another case. -/
def eval (g : Getter) (v : Value α) : Except Mishap (Option (Payload α)) :=
  if v.caseName = g.caseName then
    match g.result with
    | .unit => .ok (some .unit)
    | .binding name => (g.lookup v.args name).map fun w => some (.one w)
    | .tuple elements => (elements.mapM (g.element v.args)).map fun es => some (.tuple es)
  else .ok none

end Getter

def Source.eval : Source → Payload α → Except Mishap α
  | .whole, .one v => .ok v
  | .element i, .tuple es =>
    match es[i]? with
    | some (_, v) => .ok v
    | none => .error (.noElement i)
  | _, _ => .error .shape

def Argument.eval (a : Argument) (p : Payload α) : Except Mishap (Option Text × α) :=
  (a.source.eval p).map fun v => (a.label, v)

/-- The value that a setter leaves, which is the old one if nothing is written. -/
def Setter.eval (s : Setter) (v : Value α) : Option (Payload α) → Except Mishap (Value α)
  | none => .ok v
  | some p => (s.arguments.mapM fun a : Argument => a.eval p).map fun args => ⟨s.caseName, args⟩

namespace Accessor

def get (a : Accessor) (v : Value α) : Except Mishap (Option (Payload α)) := a.getter.eval v

def set (a : Accessor) (v : Value α) (p : Option (Payload α)) : Except Mishap (Value α) :=
  match a.setter with
  | some s => s.eval v p
  | none => .error .noSetter

end Accessor

theorem mapM_eq_ok_of_getElem {β γ ε : Type} {f : β → Except ε γ} {bs : List β} {cs : List γ}
    (hlen : bs.length = cs.length)
    (h : ∀ i (hb : i < bs.length) (hc : i < cs.length), f bs[i] = .ok cs[i]) :
    bs.mapM f = .ok cs :=
  mapM_eq_ok_iff.2 (List.forall₂_iff_get.2 ⟨hlen, fun i hb hc => by simpa using h i hb hc⟩)

namespace Shape

theorem elementName_injective : Function.Injective elementName := by
  intro i j h
  have hdigits : Nat.toDigits 10 i = Nat.toDigits 10 j := (List.cons.inj h).2
  calc
    i = Nat.ofDigitChars 10 (Nat.toDigits 10 i) 0 := Nat.ofDigitChars_ten_toDigits.symm
    _ = Nat.ofDigitChars 10 (Nat.toDigits 10 j) 0 := by rw [hdigits]
    _ = j := Nat.ofDigitChars_ten_toDigits

variable {fs : List Field} {vs : List α}

/-- The names of elements differ, so each is bound to the argument at its own position. -/
theorem lookup_elementName (name : Text) {args : Labelled α} {i : Nat} (hi : i < fs.length)
    (hargs : i < args.length) :
    ((tuple fs).getter name).lookup args (elementName i) = .ok args[i].2 := by
  have hfind : ((tuple fs).getter name).bindings.findIdx? (· == elementName i) = some i := by
    rw [List.findIdx?_eq_some_iff_getElem]
    refine ⟨by simpa [getter] using hi, by simp [getter], fun j hj => ?_⟩
    simpa [getter] using fun h => Nat.ne_of_lt hj (elementName_injective h)
  rw [Getter.lookup, hfind]
  simp only [List.getElem?_eq_getElem hargs]

theorem eval_getter_tuple (name : Text) (hvs : vs.length = fs.length) :
    ((tuple fs).getter name).eval ⟨name, (fs.map Field.label).zip vs⟩ =
      .ok (some (.tuple ((fs.map Field.label).zip vs))) := by
  have helements : ((fs.map Field.label).zip ((List.range fs.length).map elementName)).mapM
      (((tuple fs).getter name).element ((fs.map Field.label).zip vs)) =
        .ok ((fs.map Field.label).zip vs) := by
    apply mapM_eq_ok_of_getElem
    · simp [hvs]
    · intro i hb hc
      have hi : i < fs.length := by simpa [hvs] using hc
      simp only [List.getElem_zip, List.getElem_map, List.getElem_range, Getter.element,
        lookup_elementName name hi hc]
      rfl
  have hname : ((tuple fs).getter name).caseName = name := rfl
  rw [Getter.eval, if_pos hname.symm]
  change Except.map _ (List.mapM _ _) = _
  rw [helements]
  rfl

theorem eval_setter_tuple (name : Text) (hvs : vs.length = fs.length) (v : Value α) :
    ((tuple fs).setter name).eval v (some (.tuple ((fs.map Field.label).zip vs))) =
      .ok ⟨name, (fs.map Field.label).zip vs⟩ := by
  have harguments : (fs.mapIdx fun i f => (⟨f.label, .element i⟩ : Argument)).mapM
      (fun a : Argument => a.eval (.tuple ((fs.map Field.label).zip vs))) =
        .ok ((fs.map Field.label).zip vs) := by
    apply mapM_eq_ok_of_getElem
    · simp [hvs]
    · intro i hb hc
      simp only [List.getElem_mapIdx, Argument.eval, Source.eval, List.getElem?_eq_getElem hc,
        List.getElem_zip, List.getElem_map]
      rfl
  have hsetter : (tuple fs).setter name = ⟨name, fs.mapIdx fun i f => ⟨f.label, .element i⟩⟩ := rfl
  rw [Setter.eval, hsetter, harguments]
  rfl

end Shape

namespace Case

variable {c : Case} {vs : List α}

def accessor (c : Case) (access : Option Access) : Accessor :=
  { Accessor.ofCase c.name c.fields with access }

theorem get_construct (access : Option Access) (hvs : vs.length = c.fields.length) :
    (c.accessor access).get (c.construct vs) = .ok (some (c.content vs)) := by
  obtain ⟨name, fields⟩ := c
  match fields, vs, hvs with
  | [], [], _ =>
    simp [Accessor.get, Getter.eval, accessor, Accessor.ofCase, Shape.ofFields, Shape.getter,
      construct, content]
  | [f], [v], _ =>
    simp [Accessor.get, Getter.eval, Getter.lookup, accessor, Accessor.ofCase, Shape.ofFields,
      Shape.getter, construct, content, labels, Except.map]
  | f :: f' :: fields, v :: v' :: vs, hvs => exact Shape.eval_getter_tuple name hvs

theorem get_of_ne {access : Option Access} {v : Value α} (h : v.caseName ≠ c.name) :
    (c.accessor access).get v = .ok none := by
  have hgetter : (c.accessor access).getter.caseName = c.name := by
    simp only [accessor, Accessor.ofCase]
    cases Shape.ofFields c.fields <;> rfl
  rw [Accessor.get, Getter.eval, hgetter, if_neg h]

theorem set_none (access : Option Access) (v : Value α) :
    (c.accessor access).set v none = .ok v := rfl

theorem set_content (access : Option Access) (hvs : vs.length = c.fields.length) (v : Value α) :
    (c.accessor access).set v (some (c.content vs)) = .ok (c.construct vs) := by
  obtain ⟨name, fields⟩ := c
  match fields, vs, hvs with
  | [], [], _ =>
    simp [Accessor.set, Setter.eval, accessor, Accessor.ofCase, Shape.ofFields, Shape.setter,
      construct, content, pure, Except.pure, Except.map]
  | [f], [w], _ =>
    simp [Accessor.set, Setter.eval, accessor, Accessor.ofCase, Shape.ofFields, Shape.setter,
      Argument.eval, Source.eval, construct, content, labels, bind, Except.bind, pure, Except.pure,
        Except.map]
  | f :: f' :: fields, w :: w' :: vs, hvs => exact Shape.eval_setter_tuple name hvs v

end Case

/-- How a getter and a setter agree with each other and with a case of a declaration. None of the
evaluations fails. -/
structure Accessor.Lawful (α : Type) (a : Accessor) (d : Decl) (c : Case) : Prop where
  get_own : ∀ vs : List α, vs.length = c.fields.length →
    a.get (c.construct vs) = .ok (some (c.content vs))
  get_other : ∀ c' ∈ d.cases, c' ≠ c → ∀ vs : List α, vs.length = c'.fields.length →
    a.get (c'.construct vs) = .ok none
  set_none : ∀ v : Value α, a.set v none = .ok v
  set_content : ∀ (v : Value α) (vs : List α), vs.length = c.fields.length →
    a.set v (some (c.content vs)) = .ok (c.construct vs)
  get_set : ∀ (v : Value α) (vs : List α), vs.length = c.fields.length →
    (a.set v (some (c.content vs)) >>= a.get) = .ok (some (c.content vs))
  set_set : ∀ (v : Value α) (vs ws : List α), vs.length = c.fields.length →
    ws.length = c.fields.length →
    (a.set v (some (c.content vs)) >>= fun v' => a.set v' (some (c.content ws))) =
      a.set v (some (c.content ws))
  set_get : ∀ c' ∈ d.cases, ∀ vs : List α, vs.length = c'.fields.length →
    (a.get (c'.construct vs) >>= a.set (c'.construct vs)) = .ok (c'.construct vs)

namespace Case

variable {c : Case} {d : Decl}

theorem lawful_accessor (access : Option Access)
    (hother : ∀ c' ∈ d.cases, c' ≠ c → c'.name ≠ c.name) :
    (c.accessor access).Lawful α d c where
  get_own _ := get_construct access
  get_other c' hc' hne _ _ := get_of_ne (hother c' hc' hne)
  set_none := set_none access
  set_content v _ hvs := set_content access hvs v
  get_set v vs hvs := by
    rw [set_content access hvs]
    exact get_construct access hvs
  set_set v vs ws hvs hws := by
    rw [set_content access hvs, set_content access hws v]
    exact set_content access hws (c.construct vs)
  set_get c' hc' vs hvs := by
    by_cases hcc : c' = c
    · subst hcc
      rw [get_construct access hvs]
      exact set_content access hvs (c'.construct vs)
    · rw [get_of_ne (v := c'.construct vs) (hother c' hc' hcc)]
      exact set_none (c := c) access (c'.construct vs)

end Case

namespace Decl

variable {d : Decl}

theorem not_hasMember (d : Decl) (name : Text) :
    (!d.hasMember name) = decide (name ∉ d.members.map Member.name) := by
  rw [Bool.eq_iff_iff, decide_eq_true_eq, Bool.not_eq_true', ← Bool.not_eq_true, hasMember_iff]

theorem missing_eq (d : Decl) :
    d.missing = (d.cases.filter fun c => !d.hasMember c.name).map
      (·.accessor (d.access.bind Access.forMembers)) := by
  unfold missing
  induction d.cases with
  | nil => rfl
  | cons c cs ih =>
    by_cases hmember : d.hasMember c.name = true
    · have hnone : d.accessorFor? c = none := if_pos hmember
      rw [List.filterMap_cons_none hnone, List.filter_cons_of_neg (by simp [hmember])]
      exact ih
    · have hsome : d.accessorFor? c = some (.ofCase c.name c.fields) := if_neg hmember
      rw [List.filterMap_cons_some hsome, List.filter_cons_of_pos (by simp [hmember]),
        List.map_cons, List.map_cons, ih]
      rfl

theorem map_name_missing (d : Decl) :
    d.missing.map Accessor.name = (d.cases.map Case.name).filter fun n => !d.hasMember n := by
  rw [missing_eq, List.map_map, List.filter_map]
  rfl

theorem mem_missing {a : Accessor} :
    a ∈ d.missing ↔ ∃ c ∈ d.cases, d.hasMember c.name = false ∧
      c.accessor (d.access.bind Access.forMembers) = a := by
  rw [missing_eq]
  simp only [List.mem_map, List.mem_filter, Bool.not_eq_true', and_assoc]

theorem mem_drop_complete {a : Accessor} :
    .accessor a ∈ d.complete.1.members.drop d.members.length ↔ a ∈ d.missing := by
  simp [complete]

/-- Every accessor that completing adds to a declaration whose cases have different names is the
accessor of one of the cases, and keeps the laws of reading and writing for it. -/
theorem lawful_of_added (α : Type) (hnames : (d.cases.map Case.name).Nodup) {a : Accessor}
    (ha : .accessor a ∈ d.complete.1.members.drop d.members.length) :
    ∃ c ∈ d.cases, a.name = c.name ∧ a.Lawful α d c := by
  obtain ⟨c, hc, -, rfl⟩ := mem_missing.1 (mem_drop_complete.1 ha)
  have hother : ∀ c' ∈ d.cases, c' ≠ c → c'.name ≠ c.name := fun c' hc' hne hname =>
    hne (List.inj_on_of_nodup_map hnames hc' hc hname)
  exact ⟨c, hc, rfl, c.lawful_accessor _ hother⟩

/-- A declaration with a case of each shape, one of which has the name of a member. -/
theorem lawful_of_added_request :
    let failure : Case :=
      ⟨"failure".toList, [⟨some "code".toList, "Int".toList⟩, ⟨none, "String".toList⟩]⟩
    let request : Decl := ⟨"Request".toList, some .publicAccess, [.existing "idle".toList],
      [⟨"idle".toList, []⟩, ⟨"success".toList, [⟨none, "Data".toList⟩]⟩, failure]⟩
    (request.cases.map Case.name).Nodup ∧
    .accessor (failure.accessor (some .publicAccess)) ∈
      request.complete.1.members.drop request.members.length ∧
    ∃ c ∈ request.cases, "failure".toList = c.name ∧
      (failure.accessor (some .publicAccess)).Lawful Nat request c := by
  intro failure request
  have hnames : (request.cases.map Case.name).Nodup := by decide
  have hadded : .accessor (failure.accessor (some .publicAccess)) ∈
      request.complete.1.members.drop request.members.length := by decide
  exact ⟨hnames, hadded, lawful_of_added Nat hnames hadded⟩

end Decl
end CaseAccessors
