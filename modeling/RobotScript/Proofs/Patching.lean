/-
# Filling in jumps

Words can be put down with jumps and branches to nowhere, which are filled in one
after another as their targets get known. What comes of it are the words of the
code in which a loop has been closed or the jumps to labels have been resolved,
and a branch that is filled in is the one that is made at once.

Key definitions: `Assembly.fillIn`, `Code.waiting`, `Code.Filled`.
Key theorems: `Assembly.patch_jump`, `Assembly.patch_branch`, `Code.Rewrites.fillIn`,
`Code.fillIn_closeLoop`, `Code.fillIn_resolveGotos`.
-/
import RobotScript.Code.Assembly
import RobotScript.Proofs.Linking

namespace RobotScript

open Machine (Instr Binary Opcode)

namespace Assembly

/-- The words of a list. -/
def ofList (ws : List Word) : Assembly := ⟨ws.toArray⟩

/-- Fill in jumps one after another, each at an address and with its target. -/
def fillIn (a : Assembly) (jumps : List (Nat × Nat)) : Option Assembly :=
  jumps.foldlM (fun a j => a.patch j.1 j.2) a

variable {before behind : List Word}

/-- What stands at an address says how its target is filled in. -/
theorem patch_ofList (op : Opcode) (arg target : Nat) :
    (ofList (before ++ op.word arg :: behind)).patch before.length target =
      if op = .conditionalBranch then
        (ofList (before ++ op.word arg :: behind)).patchBranch before.length target
      else (ofList (before ++ op.word arg :: behind)).patchJump before.length target := by
  simp [patch, ofList, Opcode.ofWord?_word]

/-- A jump that is filled in is the jump to the target. -/
theorem patch_jump (target : Nat) :
    (ofList (before ++ ((Instr.jump 0).encode ++ behind))).patch before.length target =
      (jumpBy? ((target : Int) - before.length)).map fun i => ofList (before ++ (i.encode ++ behind)) := by
  have hpatch := @patch_ofList before behind .jump 0 target
  rw [if_neg nofun] at hpatch
  refine hpatch.trans ?_
  unfold patchJump jumpBy?
  rw [Option.map_map]
  congr 1
  funext d
  simp [setWord, ofList, Instr.encode]

/-- A branch that is filled in is the branch to the target. -/
theorem patch_branch (op : Binary) (edge : Bool) (target : Nat) :
    (ofList (before ++ ((Instr.branch op edge 0).encode ++ behind))).patch before.length target =
      (branchBy? op edge ((target : Int) - before.length)).map fun i =>
        ofList (before ++ (i.encode ++ behind)) := by
  refine (patch_ofList .conditionalBranch _ target).trans ?_
  rw [if_pos rfl]
  unfold patchBranch branchBy?
  rw [Option.map_map]
  congr 1
  funext d
  simp [setWord, ofList, Instr.encode]

end Assembly

namespace Code

open Assembly (ofList)

/-- The items that wait for their targets, with their addresses from `here` on. -/
def waiting (target? : Item → Option Nat) (here : Nat) (c : Code) : List (Nat × Nat) :=
  (c.addressed here).filterMap fun p => (target? p.2).map (p.1, ·)

/-- Where a jump out of the innermost loop or switch goes. -/
def exitTarget? (next stop : Nat) : Item → Option Nat
  | .exit kind 0 => match kind with
    | .leave => some stop
    | .again => some next
  | _ => none

/-- Where a jump to a label goes. -/
def gotoTarget? (labels : String → Option Nat) : Item → Option Nat
  | .goto name _ => labels name
  | _ => none

/-- How an item is replaced by one that does not wait for a target. -/
inductive Filled (target? : Item → Option Nat) : Nat → Item → Item → Prop
  | kept {p : Nat} {i i' : Item} (hnone : target? i = none) (hwords : words [i'] = words [i]) :
    Filled target? p i i'
  | jump {p target : Nat} {i : Item} {j : Instr} (htarget : target? i = some target)
    (hwords : words [i] = (Instr.jump 0).encode) (hj : jumpBy? ((target : Int) - p) = some j) :
    Filled target? p i (.instr j)

/-- Filling in what waits gives the words of the code in which nothing does. -/
theorem Rewrites.fillIn {R : Nat → Item → Item → Prop} {target? : Item → Option Nat} {here : Nat} {c c' : Code}
    (h : Rewrites R here c c') (hR : ∀ {p i i'}, R p i i' → Filled target? p i i') :
    ∀ before : List Word, before.length = here →
      (ofList (before ++ words c)).fillIn (waiting target? here c) = some (ofList (before ++ words c')) := by
  induction h with
  | nil => exact fun _ _ => rfl
  | @cons here i i' c c' hi hsize hc ih =>
    intro before hbefore
    have hlen : (before ++ words [i']).length = here + i.size := by
      simp [hbefore, hsize]
    have hrest := ih (before ++ words [i']) hlen
    rw [List.append_assoc, List.append_assoc, ← words_append, ← words_append, List.singleton_append,
      List.singleton_append] at hrest
    have hfront : words (i :: c) = words [i] ++ words c := words_append [i] c
    cases hR hi with
    | kept hnone hwords =>
      have hwaiting : waiting target? here (i :: c) = waiting target? (here + i.size) c := by
        simp [waiting, addressed, hnone]
      rw [hwaiting, ← hrest, hfront, ← hwords, ← words_append, List.singleton_append]
    | jump htarget hwords hj =>
      rename_i target j
      have hwaiting : waiting target? here (i :: c) = (here, target) :: waiting target? (here + i.size) c := by
        simp [waiting, addressed, htarget]
      have hpatch := @Assembly.patch_jump before (words c) target
      rw [hbefore, hj] at hpatch
      rw [hwaiting, hfront, hwords]
      unfold Assembly.fillIn
      rw [List.foldlM_cons, hpatch]
      exact hrest

/-- Closing a loop fills in the jumps out of it. -/
theorem fillIn_closeLoop {next stop : Nat} {before : List Word} {c c' : Code}
    (h : closeLoop next stop before.length c = some c') :
    (ofList (before ++ words c)).fillIn (waiting (exitTarget? next stop) before.length c) =
      some (ofList (before ++ words c')) := by
  refine (closeLoop_rewrites h).fillIn (fun hi => ?_) before rfl
  cases hi with
  | leave hj => exact .jump rfl rfl hj
  | again hj => exact .jump rfl rfl hj
  | outer => exact .kept rfl rfl
  | other hne =>
    refine .kept ?_ rfl
    unfold exitTarget?
    split
    · exact (hne _ _ rfl).elim
    · rfl

/-- Resolving the jumps to labels fills them in. -/
theorem fillIn_resolveGotos {labels : String → Option Nat} {before : List Word} {c c' : Code}
    (h : resolveGotos labels before.length c = .ok c') :
    (ofList (before ++ words c)).fillIn (waiting (gotoTarget? labels) before.length c) =
      some (ofList (before ++ words c')) := by
  have hends := @resolveGotos_ends (fun _ => True) labels before.length c (fun _ _ _ _ _ => trivial)
    fun _ _ _ => trivial
  refine (hends.of_ok h).fillIn (fun hi => ?_) before rfl
  cases hi with
  | goto hlabel hj => exact .jump hlabel rfl hj
  | other hne =>
    refine .kept ?_ rfl
    unfold gotoTarget?
    split
    · exact (hne _ _ rfl).elim
    · rfl

end Code
end RobotScript
