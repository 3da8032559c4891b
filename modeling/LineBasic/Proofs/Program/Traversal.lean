import LineBasic.Program.Traversal
import Mathlib.Data.List.Infix

/-!
# Trees in pre-order

A visitor that leaves the walk alone comes to the nodes of a tree in pre-order: to each node
before those below it, and to these from left to right.  A node may occur in a tree more than
once, so the nodes are told apart by the paths that lead to them.

Main definitions:

- `Node.children` and `Node.at?`: the nodes below a node, and the node at a path.
- `Node.IsPreorder` and `Node.places`: the places of a tree in pre-order.
- `observer`: a visitor that acts on every node it comes to.
- `Program.Records`: what a recorder lists, and where it can be stopped.

Main results:

- `Node.isPreorder_places`: every node of a tree is at one of its places, which are in order.
- `Node.visit_observer_eq_forM`: an observer acts on the nodes in pre-order, those below the
  nodes it passes over left out.
- `Program.visits_in_preorder`: what the visits of a program come to.
-/

namespace LineBasic

/-! ## Places -/

/-- A node of a tree and the path that leads to it from the root: the numbers of the children that
are taken on the way. -/
structure Place where
  path : List Nat
  node : Node
deriving DecidableEq, Repr

/-- A place of a tree, as a place of a tree that has this one as its `i`-th part. -/
def Place.under (i : Nat) (q : Place) : Place :=
  ⟨i :: q.path, q.node⟩

/-- The places of parts that stand below one node, the first of them with the number `i`. -/
def placesBelow (i : Nat) : List (List Place) → List Place
  | [] => []
  | part :: rest => part.map (Place.under i) ++ placesBelow (i + 1) rest

/-- The places of a tree, by its root and the places of the parts below. -/
def rooted (root : Node) (parts : List (List Place)) : List Place :=
  ⟨[], root⟩ :: placesBelow 0 parts

/-- The places of an expression. -/
def Expr.places : Expr → List Place
  | .binary op lhs rhs => rooted (.expr (.binary op lhs rhs)) [lhs.places, rhs.places]
  | e => rooted (.expr e) []

/-- The places of a statement. -/
def Stmt.places : Stmt → List Place
  | .assign name value => rooted (.stmt (.assign name value)) [value.places]
  | .print items => rooted (.stmt (.print items)) (items.map Expr.places)
  | .cond lhs op rhs body =>
    rooted (.stmt (.cond lhs op rhs body)) [lhs.places, rhs.places, body.places]
  | s => rooted (.stmt s) []

/-- The places of a line. -/
def Line.places (line : Line) : List Place :=
  rooted (.line line) [line.stmt.places]

namespace Node

/-- The places of the tree below a node, that of the node first. -/
def places : Node → List Place
  | .program p => rooted (.program p) (p.lines.map Line.places)
  | .line l => l.places
  | .stmt s => s.places
  | .expr e => e.places

/-- The nodes right below a node, from left to right. -/
def children : Node → List Node
  | .program p => p.lines.map .line
  | .line l => [.stmt l.stmt]
  | .stmt (.assign _ value) => [.expr value]
  | .stmt (.print items) => items.map .expr
  | .stmt (.cond lhs _ rhs body) => [.expr lhs, .expr rhs, .stmt body]
  | .expr (.binary _ lhs rhs) => [.expr lhs, .expr rhs]
  | _ => []

/-- The node that a path leads to. -/
def at? : Node → List Nat → Option Node
  | n, [] => some n
  | n, i :: path => n.children[i]?.bind fun c => c.at? path

/-- Whether a path passes a node with a property before it comes to its end. -/
def passes (p : Node → Bool) (root : Node) (path : List Nat) : Bool :=
  path.inits.dropLast.any fun front => (root.at? front).any p

/-- The places of a tree in pre-order: every node of the tree, each at the path that leads to it,
with nodes in front of those below them and further left ones in front of those further right. -/
structure IsPreorder (root : Node) (places : List Place) : Prop where
  mem_iff : ∀ path n, ⟨path, n⟩ ∈ places ↔ root.at? path = some n
  ordered : places.Pairwise fun a b => a.path < b.path

/-- The nodes of a tree in pre-order. -/
def preorder (root : Node) : List Node :=
  root.places.map Place.node

/-- The places of a tree that are not below a node with a property. -/
def placesOutside (p : Node → Bool) (root : Node) : List Place :=
  root.places.filter fun q => !root.passes p q.path

/-! ## Trees by their children -/

/-- The places of a tree are those of its root and of the trees below it. -/
theorem places_eq (n : Node) : n.places = rooted n (n.children.map places) := by
  cases n with
  | program p =>
    rw [children, List.map_map]
    rfl
  | line l => rfl
  | stmt s =>
    cases s with
    | print items =>
      rw [children, List.map_map]
      rfl
    | _ => rfl
  | expr e => cases e <;> rfl

/-- What holds of a tree if it holds of all trees right below it holds of every tree. -/
theorem induction {motive : Node → Prop} (step : ∀ n, (∀ c ∈ n.children, motive c) → motive n)
    (n : Node) : motive n := by
  have hexpr (e : Expr) : motive (.expr e) := by
    induction e with
    | binary op lhs rhs ihl ihr => exact step _ (by simp [children, ihl, ihr])
    | _ => exact step _ (by simp [children])
  have hstmt (s : Stmt) : motive (.stmt s) := by
    induction s with
    | cond lhs op rhs body ih => exact step _ (by simp [children, hexpr, ih])
    | _ => exact step _ (by simp [children, hexpr])
  have hline (l : Line) : motive (.line l) := step _ (by simp [children, hstmt])
  cases n with
  | program p => exact step _ (by simp [children, hline])
  | line l => exact hline l
  | stmt s => exact hstmt s
  | expr e => exact hexpr e

end Node

/-! ## Order -/

/-- A place below a node is one of the trees below it. -/
theorem mem_placesBelow_iff {parts : List (List Place)} {i : Nat} {q : Place} :
    q ∈ placesBelow i parts ↔
      ∃ j part, parts[j]? = some part ∧ ∃ r ∈ part, Place.under (i + j) r = q := by
  induction parts generalizing i with
  | nil => simp [placesBelow]
  | cons part rest ih =>
    rw [placesBelow, List.mem_append, List.mem_map, ih]
    constructor
    · rintro (⟨r, hr, heq⟩ | ⟨j, other, hother, r, hr, heq⟩)
      · exact ⟨0, part, rfl, r, hr, heq⟩
      · refine ⟨j + 1, other, hother, r, hr, ?_⟩
        rw [← heq, Nat.add_right_comm, Nat.add_assoc]
    · rintro ⟨j, other, hother, r, hr, heq⟩
      cases j with
      | zero =>
        cases hother
        exact .inl ⟨r, hr, heq⟩
      | succ j =>
        refine .inr ⟨j, other, hother, r, hr, ?_⟩
        rw [← heq, Nat.add_right_comm, Nat.add_assoc]

/-- Places below a node are in order if those of every tree below it are. -/
theorem pairwise_placesBelow {parts : List (List Place)}
    (h : ∀ part ∈ parts, part.Pairwise fun a b => a.path < b.path) (i : Nat) :
    (placesBelow i parts).Pairwise fun a b => a.path < b.path := by
  induction parts generalizing i with
  | nil => exact .nil
  | cons part rest ih =>
    rcases List.forall_mem_cons.1 h with ⟨hpart, hrest⟩
    refine List.pairwise_append.2 ⟨?_, ih hrest (i + 1), ?_⟩
    · refine List.pairwise_map.2 (hpart.imp fun hless => ?_)
      exact List.cons_lt_cons_iff.2 (.inr ⟨rfl, hless⟩)
    · intro a ha b hb
      rcases List.mem_map.1 ha with ⟨q, -, rfl⟩
      rcases mem_placesBelow_iff.1 hb with ⟨j, other, -, r, -, rfl⟩
      exact List.cons_lt_cons_iff.2 (.inl (by omega))

/-- The places of a tree are in pre-order. -/
theorem Node.isPreorder_places (root : Node) : root.IsPreorder root.places := by
  induction root using Node.induction with
  | step root ih =>
    rw [places_eq, rooted]
    constructor
    · intro path n
      rw [List.mem_cons, mem_placesBelow_iff]
      constructor
      · rintro (heq | ⟨j, part, hpart, q, hq, heq⟩)
        · cases heq
          rfl
        · rw [List.getElem?_map] at hpart
          rcases Option.map_eq_some_iff.1 hpart with ⟨c, hc, rfl⟩
          cases heq
          rw [Nat.zero_add, at?, hc]
          exact ((ih c (List.mem_of_getElem? hc)).mem_iff q.path q.node).1 hq
      · intro hat
        cases path with
        | nil =>
          cases hat
          exact .inl rfl
        | cons i path =>
          rcases Option.bind_eq_some_iff.1 hat with ⟨c, hc, hat⟩
          refine .inr ⟨i, c.places, ?_, ⟨path, n⟩, ?_, ?_⟩
          · rw [List.getElem?_map, hc, Option.map_some]
          · exact ((ih c (List.mem_of_getElem? hc)).mem_iff path n).2 hat
          · rw [Nat.zero_add, Place.under]
    · refine List.pairwise_cons.2 ⟨fun q hq => ?_, pairwise_placesBelow ?_ 0⟩
      · rcases mem_placesBelow_iff.1 hq with ⟨j, part, -, r, -, rfl⟩
        exact List.nil_lt_cons _ _
      · rw [List.forall_mem_map]
        exact fun c hc => (ih c hc).ordered

/-! ## Parts that are passed over -/

namespace Node

variable {p : Node → Bool}

/-- The empty path passes no node. -/
theorem passes_nil (root : Node) : root.passes p [] = false := rfl

/-- A path passes the root first. -/
theorem passes_cons {root c : Node} {i : Nat} (hc : root.children[i]? = some c)
    (path : List Nat) : root.passes p (i :: path) = (p root || c.passes p path) := by
  have hbelow (front : List Nat) : root.at? (i :: front) = c.at? front := by
    rw [at?, hc, Option.bind_some]
  have hinits : path.inits.map (List.cons i) ≠ [] := by cases path <;> simp
  rw [passes, List.inits_cons, List.dropLast_cons_of_ne_nil hinits, List.any_cons,
    ← List.map_dropLast, List.any_map]
  simp only [Function.comp_def, hbelow]
  rfl

/-- Of the trees below a node that is not passed over, the places outside are those of each. -/
theorem filter_placesBelow {root : Node} (hroot : p root = false) {i : Nat} {cs : List Node}
    (hcs : ∀ j c, cs[j]? = some c → root.children[i + j]? = some c) :
    (placesBelow i (cs.map places)).filter (fun q => !root.passes p q.path) =
      placesBelow i (cs.map (placesOutside p)) := by
  induction cs generalizing i with
  | nil => rfl
  | cons c cs ih =>
    have hlater : ∀ j d, cs[j]? = some d → root.children[i + 1 + j]? = some d := by
      intro j d hd
      rw [Nat.add_assoc, Nat.add_comm 1 j]
      exact hcs (j + 1) d hd
    have hfirst (q : Place) : root.passes p (Place.under i q).path = c.passes p q.path := by
      have hc : root.children[i]? = some c := hcs 0 c rfl
      rw [Place.under, passes_cons hc, hroot, Bool.false_or]
    rw [List.map_cons, List.map_cons, placesBelow, placesBelow, List.filter_append, ih hlater,
      List.filter_map]
    simp only [Function.comp_def, hfirst]
    rfl

/-- Outside, a tree whose root is passed over has only its root, and any other tree has its root
and what is outside in the trees below. -/
theorem placesOutside_eq (root : Node) :
    root.placesOutside p =
      if p root then [⟨[], root⟩] else rooted root (root.children.map (placesOutside p)) := by
  rw [placesOutside, places_eq, rooted, List.filter_cons_of_pos (by rw [passes_nil]; rfl)]
  split
  · rename_i hroot
    refine congrArg _ (List.filter_eq_nil_iff.2 fun q hq => ?_)
    rcases mem_placesBelow_iff.1 hq with ⟨j, part, hpart, r, -, rfl⟩
    rw [List.getElem?_map] at hpart
    rcases Option.map_eq_some_iff.1 hpart with ⟨c, hc, -⟩
    rw [Nat.zero_add, Place.under, passes_cons hc, hroot, Bool.true_or]
    decide
  · rename_i hroot
    rw [filter_placesBelow (Bool.eq_false_iff.2 hroot) fun j c hc => by rwa [Nat.zero_add], rooted]

/-- Where nothing is passed over, all places are outside. -/
theorem placesOutside_false (root : Node) : root.placesOutside (fun _ => false) = root.places := by
  have hnone (path : List Nat) : root.passes (fun _ => false) path = false := by
    rw [passes, List.any_eq_false]
    intro front _
    cases root.at? front <;> simp
  simp [placesOutside, hnone]

end Node

/-! ## Observers -/

section Observers

variable {m : Type → Type} [Monad m] {act : Node → m Unit} {skip : Node → Bool}

/-- A visitor that acts on every node, and passes over what is below some of them. -/
def observer (act : Node → m Unit) (skip : Node → Bool) : Visitor m where
  onProgram p children := do
    act (.program p)
    if skip (.program p) then pure () else children
  onLine l children := do
    act (.line l)
    if skip (.line l) then pure () else children
  onStmt s children := do
    act (.stmt s)
    if skip (.stmt s) then pure () else children
  onExpr e children := do
    act (.expr e)
    if skip (.expr e) then pure () else children

/-- The visit of a tree. -/
def Node.visit (v : Visitor m) : Node → m Unit
  | .program p => v.visitProgram p
  | .line l => v.visitLine l
  | .stmt s => v.visitStmt s
  | .expr e => v.visitExpr e

/-- Expressions are visited one after the other. -/
theorem visitExprs_eq_forM (v : Visitor m) (items : List Expr) :
    v.visitExprs items = forM (items.map Node.expr) (Node.visit v) := by
  induction items with
  | nil => rfl
  | cons e rest ih =>
    rw [List.map_cons, List.forM_cons, Visitor.visitExprs, ih]
    rfl

/-- Lines are visited one after the other. -/
theorem visitLines_eq_forM (v : Visitor m) (lines : List Line) :
    v.visitLines lines = forM (lines.map Node.line) (Node.visit v) := by
  induction lines with
  | nil => rfl
  | cons l rest ih =>
    rw [List.map_cons, List.forM_cons, Visitor.visitLines, ih]
    rfl

variable [LawfulMonad m]

/-- An observer acts on a node, and then visits the trees below it unless it passes over them. -/
theorem Node.visit_observer (n : Node) :
    n.visit (observer act skip) = (do
      act n
      if skip n then pure () else forM n.children (Node.visit (observer act skip))) := by
  cases n with
  | program p =>
    rw [children, ← visitLines_eq_forM]
    rfl
  | line l => simp [children, visit, Visitor.visitLine, observer]
  | stmt s =>
    cases s with
    | print items =>
      rw [children, ← visitExprs_eq_forM]
      rfl
    | _ => simp [children, visit, Visitor.visitStmt, observer]
  | expr e => cases e <;> simp [children, visit, Visitor.visitExpr, observer]

/-- Acting on the places below a node is acting on those of each tree below it. -/
theorem forM_placesBelow (parts : List (List Place)) (i : Nat) :
    forM (placesBelow i parts) (fun q => act q.node) =
      forM parts fun part => forM part fun q => act q.node := by
  induction parts generalizing i with
  | nil => rfl
  | cons part rest ih =>
    rw [placesBelow, List.forM_append, List.forM_map, List.forM_cons, ih]
    rfl

/-- An observer acts on the nodes in pre-order that are not below a node that it passes over. -/
theorem Node.visit_observer_eq_forM (n : Node) :
    n.visit (observer act skip) = forM (n.placesOutside skip) fun q => act q.node := by
  induction n using Node.induction with
  | step n ih =>
    rw [visit_observer, placesOutside_eq]
    split
    · simp
    · rw [rooted, List.forM_cons, forM_placesBelow, List.forM_map]
      refine congrArg _ (funext fun _ => ?_)
      generalize n.children = cs at ih
      induction cs with
      | nil => rfl
      | cons c cs ihcs =>
        rcases List.forall_mem_cons.1 ih with ⟨hc, hcs⟩
        rw [List.forM_cons, List.forM_cons, hc, ihcs hcs]

/-! ## Visitors of expressions only -/

/-- The expression that a node is, if it is one. -/
def Node.expr? : Node → Option Expr
  | .expr e => some e
  | _ => none

/-- The expressions of a tree in pre-order. -/
def Node.exprs (root : Node) : List Expr :=
  root.preorder.filterMap expr?

/-- A visitor that acts on expressions and leaves the walk alone. -/
def exprObserver (act : Expr → m Unit) : Visitor m where
  onExpr e children := do
    act e
    children

/-- A visitor of expressions is an observer that does nothing at other nodes. -/
theorem exprObserver_eq (act : Expr → m Unit) :
    exprObserver act =
      observer (fun n => (n.expr?.map act).getD (pure ())) (fun _ => false) := by
  simp [exprObserver, observer, Node.expr?]

/-- A visitor of expressions acts on the expressions of a tree in pre-order. -/
theorem Node.visit_exprObserver (act : Expr → m Unit) (n : Node) :
    n.visit (exprObserver act) = forM n.exprs act := by
  rw [exprObserver_eq, visit_observer_eq_forM, placesOutside_false, exprs, preorder,
    List.filterMap_map]
  induction n.places with
  | nil => rfl
  | cons q rest ih =>
    rw [List.forM_cons, ih, List.filterMap_cons, Function.comp_apply]
    cases q.node.expr? with
    | none => exact pure_bind () _
    | some e => rw [Option.map_some, Option.getD_some, List.forM_cons]

end Observers

/-! ## Recorders -/

/-- Whether a node is a conditional statement. -/
def Node.isCond : Node → Bool
  | .stmt s => s.isCond
  | _ => false

/-- A recorder is an observer that lists nodes. -/
theorem recorder_eq (stopAt : Option Nat) (skipCond : Bool) :
    recorder stopAt skipCond = observer (record stopAt) (fun n => skipCond && n.isCond) := by
  simp [recorder, observer, Node.isCond]

section Recording

variable {stopAt : Option Nat} {nodes seen : List Node}

/-- A node is listed, and the visit stops if the list is as long as it may become. -/
theorem run_record (node : Node) :
    (record stopAt node).run seen =
      if stopAt = some (seen.length + 1) then .error (seen.length + 1) (seen ++ [node])
      else .ok () (seen ++ [node]) := by
  by_cases h : stopAt = some (seen.length + 1) <;> simp [record, h]

/-- All nodes are listed if the visit is not to stop within them. -/
theorem run_forM_record
    (h : ∀ n, stopAt = some n → n ≤ seen.length ∨ seen.length + nodes.length < n) :
    (forM nodes (record stopAt)).run seen = .ok () (seen ++ nodes) := by
  induction nodes generalizing seen with
  | nil => simp
  | cons node rest ih =>
    have hgoes : stopAt ≠ some (seen.length + 1) := by
      intro hstop
      have hbound := h _ hstop
      simp only [List.length_cons] at hbound
      omega
    have hrest : ∀ n, stopAt = some n →
        n ≤ (seen ++ [node]).length ∨ (seen ++ [node]).length + rest.length < n := by
      intro n hstop
      have hbound := h n hstop
      have hne : n ≠ seen.length + 1 := fun heq => hgoes (heq ▸ hstop)
      simp only [List.length_cons, List.length_append, List.length_nil] at hbound ⊢
      omega
    rw [List.forM_cons, EStateM.run_bind, run_record, if_neg hgoes]
    simpa using ih hrest

/-- A visit that is to stop within the nodes lists them up to there. -/
theorem run_forM_record_of_le {n : Nat} (hseen : seen.length < n)
    (hn : n ≤ seen.length + nodes.length) :
    (forM nodes (record (some n))).run seen = .error n (seen ++ nodes.take (n - seen.length)) := by
  induction nodes generalizing seen with
  | nil =>
    rw [List.length_nil] at hn
    omega
  | cons node rest ih =>
    rw [List.forM_cons, EStateM.run_bind, run_record]
    by_cases hstop : n = seen.length + 1
    · subst hstop
      simp
    · have hlater : (seen ++ [node]).length < n := by
        rw [List.length_append, List.length_singleton]
        omega
      have hbound : n ≤ (seen ++ [node]).length + rest.length := by
        rw [List.length_cons] at hn
        rw [List.length_append, List.length_singleton]
        omega
      have hsplit : n - seen.length = n - (seen ++ [node]).length + 1 := by
        rw [List.length_append, List.length_singleton]
        omega
      rw [if_neg (by simpa using hstop), hsplit, List.take_succ_cons]
      simpa using ih hlater hbound

end Recording

/-- A recorder lists these nodes, or as many of them as it may. -/
structure Program.Records (program : Program) (skipCond : Bool) (nodes : List Node) : Prop where
  /-- Without a stop, the visit succeeds and lists all of them. -/
  whole : program.record none skipCond = (nodes, none)
  /-- With a stop among them, it fails there and has listed them up to there. -/
  stopped : ∀ n, 0 < n → n ≤ nodes.length →
    program.record (some n) skipCond = (nodes.take n, some n)
  /-- With a stop behind them, it is as without one. -/
  unreached : ∀ n, nodes.length < n →
    program.record (some n) skipCond = program.record none skipCond

/-- A recorder lists the nodes in pre-order, and those below conditional statements only if it
does not pass over them. -/
theorem Program.records_placesOutside (program : Program) (skipCond : Bool) :
    program.Records skipCond (((Node.program program).placesOutside
      fun n => skipCond && n.isCond).map Place.node) := by
  have hvisit (stopAt : Option Nat) :
      (recorder stopAt skipCond).visitProgram program =
        forM (((Node.program program).placesOutside
          fun n => skipCond && n.isCond).map Place.node) (LineBasic.record stopAt) := by
    rw [recorder_eq, List.forM_map]
    exact (Node.program program).visit_observer_eq_forM
  generalize ((Node.program program).placesOutside
    fun n => skipCond && n.isCond).map Place.node = nodes at hvisit
  have hall (stopAt : Option Nat) (h : ∀ n, stopAt = some n → nodes.length < n) :
      program.record stopAt skipCond = (nodes, none) := by
    have hrun : (forM nodes (LineBasic.record stopAt)).run [] = .ok () ([] ++ nodes) :=
      run_forM_record fun n hn => .inr (by simpa using h n hn)
    rw [Program.record, hvisit, hrun]
    rfl
  refine ⟨hall none (by simp), fun n hpos hle => ?_, fun n hlt => ?_⟩
  · have hrun : (forM nodes (LineBasic.record (some n))).run [] =
        .error n ([] ++ nodes.take (n - 0)) :=
      run_forM_record_of_le hpos (by simpa using hle)
    rw [Program.record, hvisit, hrun]
    rfl
  · rw [hall none (by simp), hall (some n) (by simpa using hlt)]

/-- A recorder lists all nodes of a program in pre-order, each of them once; one that is to stop
at some node lists them up to this node; and one that passes over conditional statements leaves
out exactly what is below these.  A visitor of expressions, in whatever way it acts on them, acts
on the expressions among these nodes. -/
theorem Program.visits_in_preorder (program : Program) :
    (Node.program program).IsPreorder (Node.program program).places ∧
      program.Records false (Node.program program).preorder ∧
      program.Records true
        (((Node.program program).placesOutside Node.isCond).map Place.node) ∧
      (∀ (m : Type → Type) [Monad m] [LawfulMonad m] (act : Expr → m Unit),
        (exprObserver act).visitProgram program = forM (Node.program program).exprs act) ∧
      program.exprCount = (Node.program program).exprs.length := by
  have hexprs {m : Type → Type} [Monad m] [LawfulMonad m] (act : Expr → m Unit) :
      (exprObserver act).visitProgram program = forM (Node.program program).exprs act :=
    (Node.program program).visit_exprObserver act
  refine ⟨Node.isPreorder_places _, ?_, ?_, fun m _ _ => hexprs, ?_⟩
  · have hall := program.records_placesOutside false
    simp only [Bool.false_and, Node.placesOutside_false] at hall
    exact hall
  · exact program.records_placesOutside true
  · have hcount (items : List Expr) (n : Nat) :
        ((forM items fun _ => (modify (· + 1) : StateM Nat Unit)).run n).2 = n + items.length := by
      induction items generalizing n with
      | nil => rfl
      | cons e rest ih =>
        rw [List.length_cons, Nat.add_comm rest.length, ← Nat.add_assoc, ← ih (n + 1)]
        rfl
    have hvisit := hexprs (m := StateM Nat) fun _ => modify (· + 1)
    rw [Program.exprCount, show exprCounter = exprObserver (m := StateM Nat) fun _ => modify (· + 1)
      from rfl, hvisit, hcount, Nat.zero_add]

/-- A recorder that is to stop at the fifth node of a program with a condition, once with what is
below the condition and once without it, and the texts in the program one by one. -/
theorem condition_visited_in_preorder :
    let test : Stmt := .cond (.number 1) .less (.binary .add (.number 2) (.name "A"))
      (.print [.text "B", .text "C"])
    let program : Program := ⟨[⟨10, test⟩, ⟨20, .stop⟩]⟩
    let texts : Expr → StateM (List String) Unit
      | .text content => modify (· ++ [content])
      | _ => pure ()
    program.record (some 5) false = ([.program program, .line ⟨10, test⟩, .stmt test,
        .expr (.number 1), .expr (.binary .add (.number 2) (.name "A"))], some 5) ∧
      program.record (some 5) true = ([.program program, .line ⟨10, test⟩, .stmt test,
        .line ⟨20, .stop⟩, .stmt .stop], some 5) ∧
      program.record (some 6) true = program.record none true ∧
      (((exprObserver texts).visitProgram program).run []).2 = ["B", "C"] := by
  intro test program texts
  rcases Program.visits_in_preorder program with ⟨-, hall, houtside, hexprs, -⟩
  refine ⟨hall.stopped 5 (by decide) (by decide), houtside.stopped 5 (by decide) (by decide),
    houtside.unreached 6 (by decide), ?_⟩
  rw [hexprs (StateM (List String)) texts]
  rfl

end LineBasic
