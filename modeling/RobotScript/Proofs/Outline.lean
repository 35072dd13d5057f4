/-
# Labels, jumps and the blocks around them

What matters for the jumps of a routine is where its labels, jumps and blocks
stand: its outline. A jump means the label of its name in the innermost block
around it that has one. Giving each label the number of its block makes labels
unique, and jumps carry the name of the label they mean. Taking out whole
blocks then separates no jump from its label, since the label is in a block
around the jump.

Key definitions: `Outline`, `Outline.targets`, `Outline.Mangles`, `Outline.Resolved`.
Key theorems: `Mangles.resolved`, `Prunes.closed`.
-/
import RobotScript.Program.Scope

namespace RobotScript

open Layout (mangle)

/-- The labels, jumps and blocks of statements, in order. -/
inductive Outline where
  | done
  | label (name : String) (rest : Outline)
  | goto (name : String) (rest : Outline)
  | block (body rest : Outline)
  deriving DecidableEq, Repr, Inhabited

namespace Outline

/-- One outline behind another. -/
def append : Outline → Outline → Outline
  | done, p => p
  | label name o, p => label name (o.append p)
  | goto name o, p => goto name (o.append p)
  | block body o, p => block body (o.append p)

instance : Append Outline := ⟨append⟩

@[simp] theorem done_append (p : Outline) : done ++ p = p := rfl

@[simp] theorem label_append (name : String) (o p : Outline) : label name o ++ p = label name (o ++ p) := rfl

@[simp] theorem goto_append (name : String) (o p : Outline) : goto name o ++ p = goto name (o ++ p) := rfl

@[simp] theorem block_append (body o p : Outline) : block body o ++ p = block body (o ++ p) := rfl

@[simp] theorem append_done (o : Outline) : o ++ done = o := by
  induction o with
  | done => rfl
  | label name o ih => rw [label_append, ih]
  | goto name o ih => rw [goto_append, ih]
  | block body o _ ih => rw [block_append, ih]

theorem append_assoc (o p q : Outline) : o ++ p ++ q = o ++ (p ++ q) := by
  induction o with
  | done => rfl
  | label name o ih => simp only [label_append, ih]
  | goto name o ih => simp only [goto_append, ih]
  | block body o _ ih => simp only [block_append, ih]

/-- All labels, in order. -/
def labels : Outline → List String
  | done => []
  | label name o => name :: o.labels
  | goto _ o => o.labels
  | block body o => body.labels ++ o.labels

/-- The names that jumps go to, in order. -/
def gotos : Outline → List String
  | done => []
  | label _ o => o.gotos
  | goto name o => name :: o.gotos
  | block body o => body.gotos ++ o.gotos

/-- The labels outside of inner blocks. -/
def direct : Outline → List String
  | done => []
  | label name o => name :: o.direct
  | goto _ o => o.direct
  | block _ o => o.direct

@[simp] theorem labels_append (o p : Outline) : (o ++ p).labels = o.labels ++ p.labels := by
  induction o with
  | done => rfl
  | label name o ih => simp only [label_append, labels, ih, List.cons_append]
  | goto name o ih => simp only [goto_append, labels, ih]
  | block body o _ ih => simp only [block_append, labels, ih, List.append_assoc]

@[simp] theorem gotos_append (o p : Outline) : (o ++ p).gotos = o.gotos ++ p.gotos := by
  induction o with
  | done => rfl
  | label name o ih => simp only [label_append, gotos, ih]
  | goto name o ih => simp only [goto_append, gotos, ih, List.cons_append]
  | block body o _ ih => simp only [block_append, gotos, ih, List.append_assoc]

@[simp] theorem direct_append (o p : Outline) : (o ++ p).direct = o.direct ++ p.direct := by
  induction o with
  | done => rfl
  | label name o ih => simp only [label_append, direct, ih, List.cons_append]
  | goto name o ih => simp only [goto_append, direct, ih]
  | block body o _ ih => simp only [block_append, direct, ih]

theorem direct_sublist (o : Outline) : o.direct.Sublist o.labels := by
  induction o with
  | done => exact .slnil
  | label name o ih => exact ih.cons_cons name
  | goto name o ih => exact ih
  | block body o _ ih => exact ih.trans (List.sublist_append_right _ _)

/-! ### The label that a jump means -/

/-- The labels that a block declares, with their numbers, if labels are counted
in order and `next` is the number of the first one. -/
def scope (next : Nat) : Outline → List (String × Nat)
  | done => []
  | label name o => (name, next) :: o.scope (next + 1)
  | goto _ o => o.scope next
  | block body o => o.scope (next + body.labels.length)

/-- The numbers of the labels that jumps mean: each jump means the label of its
name in the innermost block around it that has one. `scopes` are the labels of
the blocks around, innermost first, and `next` is the number of the next
label. -/
def targets (scopes : List (List (String × Nat))) (next : Nat) : Outline → List (Option Nat)
  | done => []
  | label _ o => o.targets scopes (next + 1)
  | goto name o => scopes.findSome? (·.lookup name) :: o.targets scopes next
  | block body o => body.targets (body.scope next :: scopes) next ++
      o.targets scopes (next + body.labels.length)

/-! ### Unique labels -/

/-- The numbers of blocks and the labels that they declare, innermost first. -/
abbrev Tags := List (Nat × List String)

/-- The innermost block that declares a name. -/
def Tags.find? (tags : Tags) (name : String) : Option (Nat × List String) :=
  List.find? (·.2.contains name) tags

/-- The second outline is the first with the number of its block in the name of
each label, and of the label meant in that of each jump. Blocks are numbered in
order if they are scopes of their own (`nested`), from the first number to the
one before the last; else they declare no labels. -/
inductive Mangles (nested : Bool) : Tags → Nat → Outline → Outline → Nat → Prop
  | done {tags : Tags} {id : Nat} : Mangles nested tags id .done .done id
  | label {tags : Tags} {id last : Nat} {name : String} {o o' : Outline} {tag : Nat × List String}
    (htag : tags.find? name = some tag) (rest : Mangles nested tags id o o' last) :
    Mangles nested tags id (.label name o) (.label (mangle name tag.1) o') last
  | goto {tags : Tags} {id last : Nat} {name : String} {o o' : Outline} {tag : Nat × List String}
    (htag : tags.find? name = some tag) (rest : Mangles nested tags id o o' last) :
    Mangles nested tags id (.goto name o) (.goto (mangle name tag.1) o') last
  | block {tags : Tags} {id mid last : Nat} {names : List String} {body body' o o' : Outline}
    (hnested : nested = true) (hnodup : body.direct.Nodup) (hnames : ∀ name, name ∈ names ↔ name ∈ body.direct)
    (inside : Mangles nested ((id, names) :: tags) (id + 1) body body' mid)
    (rest : Mangles nested tags mid o o' last) :
    Mangles nested tags id (.block body o) (.block body' o') last
  | inline {tags : Tags} {id mid last : Nat} {body body' o o' : Outline}
    (hnested : nested = false) (inside : Mangles nested tags id body body' mid)
    (rest : Mangles nested tags mid o o' last) :
    Mangles nested tags id (.block body o) (.block body' o') last

variable {id last : Nat} {o o' : Outline}

/-- The number of a block behind a name can be told from the name. -/
theorem mangle_inj {name name' : String} {id' : Nat} :
    mangle name id = mangle name' id' ↔ name = name' ∧ id = id' := by
  refine ⟨fun h => ?_, fun h => by rw [h.1, h.2]⟩
  have hdigits : ∀ n : Nat, ∀ c ∈ (Nat.toDigits 10 n).reverse, (c != '@') = true := by
    intro n c hc
    have hdigit := Nat.isDigit_of_mem_toDigits (by decide) (by decide) (List.mem_reverse.mp hc)
    rw [bne_iff_ne]
    rintro rfl
    cases hdigit
  have hlist : ∀ (n : String) (i : Nat), (mangle n i).toList.reverse =
      (Nat.toDigits 10 i).reverse ++ '@' :: n.toList.reverse := by
    intro n i
    have hrepr : toString i = String.ofList (Nat.toDigits 10 i) := Nat.repr_eq_ofList_toDigits
    simp [mangle, hrepr]
  have hrev : (Nat.toDigits 10 id).reverse ++ '@' :: name.toList.reverse =
      (Nat.toDigits 10 id').reverse ++ '@' :: name'.toList.reverse := by
    rw [← hlist, ← hlist, h]
  have hfront := congrArg (List.takeWhile (· != '@')) hrev
  rw [List.takeWhile_append_of_pos (hdigits id), List.takeWhile_append_of_pos (hdigits id')] at hfront
  simp only [List.takeWhile_cons, bne_self_eq_false, Bool.false_eq_true, if_false, List.append_nil] at hfront
  have hids : id = id' := by
    calc
      id = Nat.ofDigitChars 10 (Nat.toDigits 10 id) 0 := Nat.ofDigitChars_ten_toDigits.symm
      _ = Nat.ofDigitChars 10 (Nat.toDigits 10 id') 0 := by rw [List.reverse_inj.mp hfront]
      _ = id' := Nat.ofDigitChars_ten_toDigits
  rw [hfront, List.append_cancel_left_eq, List.cons.injEq] at hrev
  exact ⟨String.toList_inj.mp (List.reverse_inj.mp hrev.2), hids⟩

namespace Mangles

variable {nested : Bool} {tags : Tags} {mid : Nat} {p p' : Outline}

theorem append (h : Mangles nested tags id o o' mid) (h' : Mangles nested tags mid p p' last) :
    Mangles nested tags id (o ++ p) (o' ++ p') last := by
  induction h with
  | done => exact h'
  | label htag _ ih => exact .label htag (ih h')
  | goto htag _ ih => exact .goto htag (ih h')
  | block hnested hnodup hnames inside _ _ ih => exact .block hnested hnodup hnames inside (ih h')
  | inline hnested inside _ _ ih => exact .inline hnested inside (ih h')

/-- Nothing but names changes. -/
theorem lengths (h : Mangles nested tags id o o' last) :
    o'.labels.length = o.labels.length ∧ o'.gotos.length = o.gotos.length := by
  induction h with
  | done => exact ⟨rfl, rfl⟩
  | label _ _ ih => simp [labels, gotos, ih]
  | goto _ _ ih => simp [labels, gotos, ih]
  | block _ _ _ _ _ ihb iho => simp [labels, gotos, ihb, iho]
  | inline _ _ _ ihb iho => simp [labels, gotos, ihb, iho]

theorem le (h : Mangles nested tags id o o' last) : id ≤ last := by
  induction h with
  | done => exact Nat.le_refl _
  | label _ _ ih => exact ih
  | goto _ _ ih => exact ih
  | block _ _ _ _ _ ihb iho => omega
  | inline _ _ _ ihb iho => omega

end Mangles

theorem Tags.find?_head {k : Nat} {names : List String} {tags : Tags} {name : String}
    (h : name ∈ names) : Tags.find? ((k, names) :: tags) name = some (k, names) :=
  List.find?_cons_of_pos (by simpa using h)

namespace Mangles

variable {tags : Tags} {k : Nat} {names : List String} (h : Mangles true ((k, names) :: tags) id o o' last)
  (hdirect : ∀ name ∈ o.direct, name ∈ names)

include h hdirect

/-- The labels of a block have its number. -/
theorem direct_eq : o'.direct = o.direct.map (mangle · k) := by
  generalize htags : (k, names) :: tags = scopes at h
  induction h with
  | done => rfl
  | label htag _ ih =>
    subst htags
    obtain ⟨hname, hrest⟩ := List.forall_mem_cons.mp hdirect
    rw [Tags.find?_head hname] at htag
    cases htag
    rw [direct, direct, List.map_cons, ih hrest rfl]
  | goto _ _ ih => exact ih hdirect htags
  | block _ _ _ _ _ _ ih => exact ih hdirect htags
  | inline hnested => cases hnested

/-- The labels inside a block have its number, if it declares them, or the
number of a block inside. -/
theorem labels_numbered : ∀ x ∈ o'.labels, (∃ name ∈ o.direct, x = mangle name k) ∨
      ∃ name j, x = mangle name j ∧ id ≤ j ∧ j < last := by
  generalize htags : (k, names) :: tags = scopes at h
  induction h generalizing k names tags with
  | done => nofun
  | label htag rest ih =>
    subst htags
    obtain ⟨hname, hrest⟩ := List.forall_mem_cons.mp hdirect
    rw [Tags.find?_head hname] at htag
    cases htag
    intro x hx
    rcases List.mem_cons.mp hx with rfl | hx
    · exact .inl ⟨_, List.mem_cons_self, rfl⟩
    · rcases ih hrest rfl x hx with ⟨name, hmem, rfl⟩ | hinner
      · exact .inl ⟨name, List.mem_cons_of_mem _ hmem, rfl⟩
      · exact .inr hinner
  | goto _ _ ih => exact ih hdirect htags
  | @block _ id mid last _ body body' o o' _ _ hnames inside rest ihb iho =>
    have hle := inside.le
    have hle' := rest.le
    intro x hx
    rcases List.mem_append.mp hx with hx | hx
    · refine .inr ?_
      rcases ihb (fun name hmem => (hnames name).mpr hmem) rfl x hx with
        ⟨name, -, rfl⟩ | ⟨name, j, rfl, hlo, hhi⟩
      · exact ⟨name, id, rfl, Nat.le_refl _, by omega⟩
      · exact ⟨name, j, rfl, by omega, by omega⟩
    · rcases iho hdirect htags x hx with hown | ⟨name, j, rfl, hlo, hhi⟩
      · exact .inl hown
      · exact .inr ⟨name, j, rfl, by omega, by omega⟩
  | inline hnested => cases hnested

/-- Labels are unique. -/
theorem nodup_labels (hk : k < id) (hnodup : o.direct.Nodup) : o'.labels.Nodup := by
  generalize htags : (k, names) :: tags = scopes at h
  induction h generalizing k names tags with
  | done => exact List.nodup_nil
  | @label _ id last name o o' tag htag rest ih =>
    subst htags
    obtain ⟨hname, hrest⟩ := List.forall_mem_cons.mp hdirect
    obtain ⟨hnew, hnodup⟩ := List.nodup_cons.mp hnodup
    rw [Tags.find?_head hname] at htag
    cases htag
    refine List.nodup_cons.mpr ⟨fun hmem => ?_, ih hrest hk hnodup rfl⟩
    rcases rest.labels_numbered hrest _ hmem with ⟨name', hmem', heq⟩ | ⟨name', j, heq, hlo, -⟩
    · rw [(mangle_inj.mp heq).1] at hnew
      exact hnew hmem'
    · have hj : k = j := (mangle_inj.mp heq).2
      omega
  | goto _ _ ih => exact ih hdirect hk hnodup htags
  | @block _ id mid last names' body body' o o' _ hnodup' hnames inside rest ihb iho =>
    subst htags
    have hinside : ∀ name ∈ body.direct, name ∈ names' := fun name hmem => (hnames name).mpr hmem
    have hbody := ihb hinside (Nat.lt_succ_self id) hnodup' rfl
    have hrest := iho hdirect (Nat.lt_of_lt_of_le hk (Nat.le_of_succ_le inside.le)) hnodup rfl
    refine List.nodup_append.mpr ⟨hbody, hrest, ?_⟩
    -- The numbers of the two parts are apart.
    rintro x hx _ hx' rfl
    have hle := inside.le
    have hfirst : ∃ name j, x = mangle name j ∧ id ≤ j ∧ j < mid := by
      rcases inside.labels_numbered hinside x hx with ⟨name, -, rfl⟩ | ⟨name, j, rfl, hlo, hhi⟩
      · exact ⟨name, id, rfl, Nat.le_refl _, by omega⟩
      · exact ⟨name, j, rfl, by omega, hhi⟩
    obtain ⟨name, j, rfl, hlo, hhi⟩ := hfirst
    rcases rest.labels_numbered hdirect _ hx' with ⟨name', -, heq⟩ | ⟨name', j', heq, hlo', -⟩
    · have hj : j = k := (mangle_inj.mp heq).2
      omega
    · have hj : j = j' := (mangle_inj.mp heq).2
      omega
  | inline hnested => cases hnested

end Mangles

/-! ### Jumps go where they should -/

theorem scope_lookup_none {name : String} : ∀ {o : Outline} {next : Nat}, name ∉ o.direct →
    (o.scope next).lookup name = none
  | done, _, _ => rfl
  | label name' o, next, h => by
    obtain ⟨hne, hrest⟩ := not_or.mp fun hor => h (List.mem_cons.mpr hor)
    rw [scope, List.lookup_cons, beq_eq_false_iff_ne.mpr hne]
    exact scope_lookup_none hrest
  | goto _ o, next, h => scope_lookup_none (o := o) h
  | block _ o, next, h => scope_lookup_none (o := o) h

/-- A scope and a tag are those of one block, if `all` has the labels by their
numbers. -/
def Agree (all : List String) (scope : List (String × Nat)) (tag : Nat × List String) : Prop :=
  ∀ name, (name ∈ tag.2 → ∃ i, scope.lookup name = some i ∧ all[i]? = some (mangle name tag.1)) ∧
    (name ∉ tag.2 → scope.lookup name = none)

/-- Scopes and tags are those of the same blocks. -/
def AllAgree (all : List String) : List (List (String × Nat)) → Tags → Prop
  | [], [] => True
  | scope :: scopes, tag :: tags => Agree all scope tag ∧ AllAgree all scopes tags
  | _, _ => False

theorem AllAgree.find? {all : List String} {name : String} {tag : Nat × List String} :
    ∀ {scopes : List (List (String × Nat))} {tags : Tags}, AllAgree all scopes tags →
      tags.find? name = some tag →
      ∃ i, scopes.findSome? (·.lookup name) = some i ∧ all[i]? = some (mangle name tag.1)
  | [], [], _, h => by cases h
  | scope :: scopes, head :: tags, hall, h => by
    by_cases hname : name ∈ head.2
    · rw [Tags.find?_head hname] at h
      cases h
      obtain ⟨i, hi, hat⟩ := (hall.1 name).1 hname
      exact ⟨i, by rw [List.findSome?_cons, hi], hat⟩
    · rw [Tags.find?, List.find?_cons_of_neg (by simpa using hname)] at h
      rw [List.findSome?_cons, (hall.1 name).2 hname]
      exact hall.2.find? h

namespace Mangles

variable {tags : Tags} {k : Nat} {names : List String}
variable {all before after : List String}

/-- The labels that a block declares are found at their numbers. -/
theorem scope_lookup (h : Mangles true ((k, names) :: tags) id o o' last)
    (hdirect : ∀ name ∈ o.direct, name ∈ names) {name : String} (hname : name ∈ o.direct)
    (hall : all = before ++ o'.labels ++ after) :
    ∃ i, (o.scope before.length).lookup name = some i ∧ all[i]? = some (mangle name k) := by
  generalize htags : (k, names) :: tags = scopes at h
  induction h generalizing before with
  | done => cases hname
  | @label _ id last name' o o' tag htag rest ih =>
    subst htags
    obtain ⟨hhead, hrest⟩ := List.forall_mem_cons.mp hdirect
    rw [Tags.find?_head hhead] at htag
    cases htag
    rw [scope, List.lookup_cons]
    by_cases heq : name = name'
    · subst heq
      refine ⟨before.length, by rw [beq_self_eq_true], ?_⟩
      rw [hall, labels, List.append_assoc, List.getElem?_append_right (Nat.le_refl _), Nat.sub_self]
      rfl
    · rw [beq_eq_false_iff_ne.mpr heq]
      have hmem : name ∈ o.direct := (List.mem_cons.mp hname).resolve_left heq
      have hall' : all = (before ++ [mangle name' k]) ++ o'.labels ++ after := by
        rw [hall, labels, List.append_assoc before [_], List.singleton_append]
      have hfound := ih hrest hmem hall' rfl
      rwa [List.length_append, List.length_singleton] at hfound
  | goto _ _ ih => exact ih hdirect hname hall htags
  | block _ _ _ inside _ _ ih =>
    have hall' := hall.trans (congrArg (· ++ after) (List.append_assoc _ _ _).symm)
    have hfound := ih hdirect hname hall' htags
    rwa [List.length_append, inside.lengths.1] at hfound
  | inline hnested => cases hnested

/-- A block's scope and its tag are of the same labels. -/
theorem agree (h : Mangles true ((k, names) :: tags) id o o' last)
    (hnames : ∀ name, name ∈ names ↔ name ∈ o.direct) (hall : all = before ++ o'.labels ++ after) :
    Agree all (o.scope before.length) (k, names) := by
  intro name
  refine ⟨fun hname => ?_, fun hname => ?_⟩
  · exact h.scope_lookup (fun name hmem => (hnames name).mpr hmem) ((hnames name).mp hname) hall
  · exact scope_lookup_none fun hmem => hname ((hnames name).mpr hmem)

/-- Jumps carry the names of the labels that they mean. -/
theorem gotos_eq (h : Mangles true tags id o o' last) {scopes : List (List (String × Nat))}
    (hall : all = before ++ o'.labels ++ after) (hagree : AllAgree all scopes tags) :
    o'.gotos.map some = (o.targets scopes before.length).map (·.bind (all[·]?)) := by
  induction h generalizing scopes before after with
  | done => rfl
  | @label _ id last name o o' tag htag rest ih =>
    have hall' : all = (before ++ [mangle name tag.1]) ++ o'.labels ++ after := by
      rw [hall, labels, List.append_assoc before [_], List.singleton_append]
    have hrest := ih hall' hagree
    rwa [List.length_append, List.length_singleton] at hrest
  | goto htag rest ih =>
    obtain ⟨i, hi, hat⟩ := hagree.find? htag
    rw [gotos, targets, List.map_cons, List.map_cons, ih hall hagree, hi, Option.bind_some, hat]
  | @block tags id mid last names body body' o o' _ _ hnames inside rest ihb iho =>
    have hfirst : all = before ++ body'.labels ++ (o'.labels ++ after) := by
      rw [hall, labels]
      simp only [List.append_assoc]
    have hsecond : all = (before ++ body'.labels) ++ o'.labels ++ after := by
      rw [hall, labels]
      simp only [List.append_assoc]
    have hinside : AllAgree all (body.scope before.length :: scopes) ((id, names) :: tags) :=
      ⟨inside.agree hnames hfirst, hagree⟩
    have hbody := ihb hfirst hinside
    have hrest := iho hsecond hagree
    rw [List.length_append, inside.lengths.1] at hrest
    rw [gotos, targets, List.map_append, List.map_append, hbody, hrest]
  | inline hnested => cases hnested

end Mangles

/-! ### Jumps within their blocks -/

/-- Every jump goes to one of the given labels or to one of a block around it. -/
def Closed : List String → Outline → Prop
  | _, done => True
  | seen, label _ o => Closed seen o
  | seen, goto name o => name ∈ seen ∧ Closed seen o
  | seen, block body o => Closed (body.direct ++ seen) body ∧ Closed seen o

/-- A jump goes to one of the given labels or to one that is there. -/
theorem Closed.mem {name : String} : ∀ {o : Outline} {seen : List String}, o.Closed seen →
    name ∈ o.gotos → name ∈ seen ∨ name ∈ o.labels
  | label _ o, seen, h, hmem => (Closed.mem (o := o) h hmem).imp id (List.mem_cons_of_mem _)
  | goto name' o, seen, h, hmem => by
    rcases List.mem_cons.mp hmem with rfl | hmem
    · exact .inl h.1
    · exact Closed.mem (o := o) h.2 hmem
  | block body o, seen, h, hmem => by
    rcases List.mem_append.mp hmem with hmem | hmem
    · rcases Closed.mem h.1 hmem with hseen | hlabel
      · rcases List.mem_append.mp hseen with hdirect | hseen
        · exact .inr (List.mem_append_left _ (body.direct_sublist.subset hdirect))
        · exact .inl hseen
      · exact .inr (List.mem_append_left _ hlabel)
    · exact (Closed.mem h.2 hmem).imp id (List.mem_append_right _)

/-- The names of labels that jumps can mean. -/
def Tags.names (tags : Tags) : List String := tags.flatMap fun tag => tag.2.map (mangle · tag.1)

theorem Mangles.closed {tags : Tags} (h : Mangles true tags id o o' last) {seen : List String}
    (hseen : ∀ name ∈ tags.names, name ∈ seen) : o'.Closed seen := by
  induction h generalizing seen with
  | done => trivial
  | label _ _ ih => exact ih hseen
  | @goto tags id last name o o' tag htag _ ih =>
    refine ⟨hseen _ ?_, ih hseen⟩
    have hname : name ∈ tag.2 := by simpa using List.find?_some htag
    exact List.mem_flatMap.mpr ⟨tag, List.mem_of_find?_eq_some htag, List.mem_map.mpr ⟨name, hname, rfl⟩⟩
  | @block tags id mid last names body body' o o' _ _ hnames inside _ ihb iho =>
    refine ⟨ihb fun name hname => ?_, iho hseen⟩
    rw [inside.direct_eq fun name hmem => (hnames name).mpr hmem]
    rw [Tags.names, List.flatMap_cons] at hname
    rcases List.mem_append.mp hname with hname | hname
    · obtain ⟨n, hn, rfl⟩ := List.mem_map.mp hname
      exact List.mem_append_left _ (List.mem_map.mpr ⟨n, (hnames n).mp hn, rfl⟩)
    · exact List.mem_append_right _ (hseen name hname)
  | inline hnested => cases hnested

/-! ### Resolved jumps -/

/-- The labels of the second outline are those of the first, made unique, and
each jump has the name of the label that it means in the first. -/
structure Resolved (o o' : Outline) : Prop where
  labels : o'.labels.length = o.labels.length
  nodup : o'.labels.Nodup
  gotos : o'.gotos.map some = (o.targets [o.scope 0] 0).map (·.bind (o'.labels[·]?))

theorem Mangles.resolved {k : Nat} {names : List String} (h : Mangles true [(k, names)] id o o' last)
    (hk : k < id) (hnodup : o.direct.Nodup) (hnames : ∀ name, name ∈ names ↔ name ∈ o.direct) :
    o.Resolved o' ∧ o'.Closed o'.direct := by
  have hdirect : ∀ name ∈ o.direct, name ∈ names := fun name hmem => (hnames name).mpr hmem
  have hall : o'.labels = [] ++ o'.labels ++ [] := by rw [List.nil_append, List.append_nil]
  refine ⟨⟨h.lengths.1, h.nodup_labels hdirect hk hnodup, ?_⟩, ?_⟩
  · exact h.gotos_eq hall ⟨h.agree hnames hall, trivial⟩
  · refine h.closed fun name hname => ?_
    rw [Tags.names, List.flatMap_singleton] at hname
    obtain ⟨n, hn, rfl⟩ := List.mem_map.mp hname
    rw [h.direct_eq hdirect]
    exact List.mem_map.mpr ⟨n, (hnames n).mp hn, rfl⟩

/-- Neither labels nor jumps. -/
def Bare (o : Outline) : Prop := o.labels = [] ∧ o.gotos = []

namespace Bare

variable {p body : Outline}

theorem append (ho : o.Bare) (hp : p.Bare) : (o ++ p).Bare := by
  simp [Bare, ho.1, ho.2, hp.1, hp.2]

theorem block (hbody : body.Bare) (ho : o.Bare) : (Outline.block body o).Bare := by
  simp [Bare, labels, gotos, hbody.1, hbody.2, ho.1, ho.2]

theorem direct (h : o.Bare) : o.direct = [] := List.eq_nil_of_sublist_nil (h.1 ▸ o.direct_sublist)

theorem closed (h : o.Bare) (seen : List String) : o.Closed seen := by
  induction o generalizing seen with
  | done => trivial
  | label name o _ => cases h.1
  | goto name o _ => cases h.2
  | block body o ihb iho =>
    have hlabels := List.append_eq_nil_iff.mp h.1
    have hgotos := List.append_eq_nil_iff.mp h.2
    exact ⟨ihb ⟨hlabels.1, hgotos.1⟩ _, iho ⟨hlabels.2, hgotos.2⟩ _⟩

/-- Where there are no labels and jumps, nothing is left to resolve. -/
theorem resolved (h : o.Bare) (h' : o'.Bare) : o.Resolved o' := by
  have htargets : ∀ (q : Outline), q.gotos = [] → ∀ scopes next, q.targets scopes next = [] := by
    intro q
    induction q with
    | done => exact fun _ _ _ => rfl
    | label name q ih => exact fun hq scopes next => ih hq scopes (next + 1)
    | goto name q _ => exact fun hq => by cases hq
    | block body q ihb ihq =>
      intro hq scopes next
      obtain ⟨hb, hq⟩ := List.append_eq_nil_iff.mp hq
      rw [targets, ihb hb, ihq hq, List.append_nil]
  refine ⟨by rw [h.1, h'.1], h'.1 ▸ List.nodup_nil, ?_⟩
  rw [h'.2, htargets o h.2]
  rfl

end Bare

theorem Mangles.bare {nested : Bool} {tags : Tags} (h : Mangles nested tags id o o' last) (ho : o.Bare) :
    o'.Bare := by
  obtain ⟨hlabels, hgotos⟩ := h.lengths
  rw [ho.1] at hlabels
  rw [ho.2] at hgotos
  exact ⟨List.length_eq_zero_iff.mp hlabels, List.length_eq_zero_iff.mp hgotos⟩

/-! ### Fewer blocks -/

/-- The second outline is the first without some of its blocks. -/
inductive Prunes : Outline → Outline → Prop
  | done : Prunes .done .done
  | label (name : String) {o p : Outline} (rest : Prunes o p) : Prunes (.label name o) (.label name p)
  | goto (name : String) {o p : Outline} (rest : Prunes o p) : Prunes (.goto name o) (.goto name p)
  | block {body body' o p : Outline} (inside : Prunes body body') (rest : Prunes o p) :
    Prunes (.block body o) (.block body' p)
  | drop (body : Outline) {o p : Outline} (rest : Prunes o p) : Prunes (.block body o) p

namespace Prunes

variable {p p' : Outline}

theorem refl : ∀ o : Outline, Prunes o o
  | .done => .done
  | .label name o => .label name (refl o)
  | .goto name o => .goto name (refl o)
  | .block body o => .block (refl body) (refl o)

theorem trans {q : Outline} (h : Prunes o p) (h' : Prunes p q) : Prunes o q := by
  induction h generalizing q with
  | done => exact h'
  | label name _ ih =>
    cases h' with
    | label _ rest => exact .label name (ih rest)
  | goto name _ ih =>
    cases h' with
    | goto _ rest => exact .goto name (ih rest)
  | block _ _ ihb ih =>
    cases h' with
    | block inside rest => exact .block (ihb inside) (ih rest)
    | drop _ rest => exact .drop _ (ih rest)
  | drop body _ ih => exact .drop body (ih h')

theorem append (h : Prunes o p) (h' : Prunes o' p') : Prunes (o ++ o') (p ++ p') := by
  induction h with
  | done => exact h'
  | label name _ ih => exact .label name ih
  | goto name _ ih => exact .goto name ih
  | block inside _ _ ih => exact .block inside ih
  | drop body _ ih => exact .drop body ih

/-- The labels of a block stay. -/
theorem direct_eq (h : Prunes o p) : p.direct = o.direct := by
  induction h with
  | done => rfl
  | label name _ ih => exact congrArg (name :: ·) ih
  | goto _ _ ih => exact ih
  | block _ _ _ ih => exact ih
  | drop _ _ ih => exact ih

theorem labels_sublist (h : Prunes o p) : p.labels.Sublist o.labels := by
  induction h with
  | done => exact .slnil
  | label name _ ih => exact ih.cons_cons name
  | goto _ _ ih => exact ih
  | block _ _ ihb ih => exact ihb.append ih
  | drop _ _ ih => exact ih.trans (List.sublist_append_right _ _)

theorem gotos_sublist (h : Prunes o p) : p.gotos.Sublist o.gotos := by
  induction h with
  | done => exact .slnil
  | label _ _ ih => exact ih
  | goto name _ ih => exact ih.cons_cons name
  | block _ _ ihb ih => exact ihb.append ih
  | drop _ _ ih => exact ih.trans (List.sublist_append_right _ _)

/-- No jump loses its label. -/
theorem closed (h : Prunes o p) {seen : List String} (ho : o.Closed seen) : p.Closed seen := by
  induction h generalizing seen with
  | done => trivial
  | label _ _ ih => exact ih ho
  | goto _ _ ih => exact ⟨ho.1, ih ho.2⟩
  | block inside _ ihb ih =>
    refine ⟨?_, ih ho.2⟩
    rw [inside.direct_eq]
    exact ihb ho.1
  | drop _ _ ih => exact ih ho.2

end Prunes

end Outline
end RobotScript
