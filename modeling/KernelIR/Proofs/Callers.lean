import KernelIR.CallGraph
import KernelIR.Proofs.Symbols
import Mathlib

/-!
# Callers

The call graph has one edge for each call site of a live function, in the order in which the scan
for call sites lists them.  So its callers are those of the call sites, each of them once and in the
order of the arena.  They do not depend on how the graph is stored, as long as the edges into a node
are listed in the order in which they were first added.
-/

namespace KernelIR

section EraseDups

variable {α β : Type} [DecidableEq α]

theorem eraseDups_concat (xs : List α) (x : α) :
    (xs ++ [x]).eraseDups = if x ∈ xs then xs.eraseDups else xs.eraseDups ++ [x] := by
  rw [List.eraseDups_append]
  by_cases hx : x ∈ xs <;> simp [List.removeAll, hx, List.eraseDups_cons]

theorem eraseDups_eq_nil_iff {xs : List α} : xs.eraseDups = [] ↔ xs = [] := by
  cases xs <;> simp [List.eraseDups_cons]

theorem eraseDups_replicate (n : Nat) (x : α) :
    (List.replicate n x).eraseDups = if n = 0 then [] else [x] := by
  cases n with
  | zero => rfl
  | succ n => simp [List.replicate_succ, List.eraseDups_cons]

/-- In a list that mentions each key in one go, the keys that it mentions are left. -/
theorem eraseDups_flatMap_replicate {key : β → α} {xs : List β} (h : (xs.map key).Nodup)
    (n : β → Nat) : (xs.flatMap fun x => List.replicate (n x) (key x)).eraseDups =
      (xs.filter fun x => n x ≠ 0).map key := by
  induction xs with
  | nil => rfl
  | cons x xs ih =>
      obtain ⟨hx, hxs⟩ := List.nodup_cons.1 h
      have hrest : (xs.flatMap fun y => List.replicate (n y) (key y)).removeAll
          (List.replicate (n x) (key x)) = xs.flatMap fun y => List.replicate (n y) (key y) := by
        refine List.filter_eq_self.2 fun a ha => ?_
        obtain ⟨y, hy, ha⟩ := List.mem_flatMap.1 ha
        obtain rfl := List.eq_of_mem_replicate ha
        have hne : key y ≠ key x := fun heq => hx (heq ▸ List.mem_map_of_mem hy)
        simp [hne]
      rw [List.flatMap_cons, List.eraseDups_append, hrest, ih hxs, eraseDups_replicate]
      by_cases hn : n x = 0 <;> simp [hn]

end EraseDups

namespace CallGraph

/-- An edge that is added last makes a caller of a function that did not call so far. -/
theorem callers_concat (edges : List (FuncId × FuncId)) (e : FuncId × FuncId) (callee : FuncId) :
    callers ⟨edges ++ [e]⟩ callee =
      if e.2 = callee ∧ e.1 ∉ callers ⟨edges⟩ callee then callers ⟨edges⟩ callee ++ [e.1]
      else callers ⟨edges⟩ callee := by
  simp only [callers, List.filter_append, List.map_append, List.mem_eraseDups]
  by_cases he : e.2 = callee
  · simp only [he, true_and, decide_true, List.filter_cons_of_pos, List.filter_nil,
      List.map_singleton, eraseDups_concat]
    split_ifs <;> rfl
  · simp [he]

end CallGraph

/-- Directed graphs of functions, however they are stored. -/
structure EdgeStore (γ : Type) where
  empty : γ
  addNode : FuncId → γ → γ
  addEdge : FuncId → FuncId → γ → γ
  /-- The nodes from which an edge leads to a node. -/
  incoming : FuncId → γ → List FuncId

namespace EdgeStore

variable {γ : Type} {store : EdgeStore γ}

/-- Edges into a node are listed in the order in which they were first added, each of them once.  An
edge from a node to itself is one of them. -/
structure Lawful (store : EdgeStore γ) : Prop where
  incoming_empty : ∀ b, store.incoming b store.empty = []
  incoming_addNode : ∀ a b g, store.incoming b (store.addNode a g) = store.incoming b g
  incoming_addEdge : ∀ a b g, a ∉ store.incoming b g →
    store.incoming b (store.addEdge a b g) = store.incoming b g ++ [a]
  incoming_addEdge_again : ∀ a b g, a ∈ store.incoming b g →
    store.incoming b (store.addEdge a b g) = store.incoming b g
  incoming_addEdge_other : ∀ a b c g, c ≠ b →
    store.incoming c (store.addEdge a b g) = store.incoming c g

namespace Lawful

theorem incoming_step (h : store.Lawful) (a b c : FuncId) (g : γ) :
    store.incoming c (store.addEdge a b g) =
      if b = c ∧ a ∉ store.incoming c g then store.incoming c g ++ [a]
      else store.incoming c g := by
  by_cases hb : b = c
  · subst hb
    by_cases ha : a ∈ store.incoming b g
    · simp [ha, h.incoming_addEdge_again a b g ha]
    · simp [ha, h.incoming_addEdge a b g ha]
  · simp [hb, h.incoming_addEdge_other a b c g (Ne.symm hb)]

theorem incoming_foldl_addNode (h : store.Lawful) (nodes : List FuncId) (b : FuncId) :
    store.incoming b (nodes.foldl (fun g a => store.addNode a g) store.empty) = [] := by
  induction nodes using List.reverseRecOn with
  | nil => exact h.incoming_empty b
  | append_singleton nodes a ih =>
      rw [List.foldl_append]
      exact (h.incoming_addNode a b _).trans ih

theorem incoming_foldl_addEdge (h : store.Lawful) {g : γ} {b : FuncId}
    (hg : store.incoming b g = []) (edges : List (FuncId × FuncId)) :
    store.incoming b (edges.foldl (fun g e => store.addEdge e.1 e.2 g) g) =
      CallGraph.callers ⟨edges⟩ b := by
  induction edges using List.reverseRecOn with
  | nil => exact hg
  | append_singleton edges e ih =>
      rw [List.foldl_append, CallGraph.callers_concat, ← ih]
      exact h.incoming_step e.1 e.2 b _

end Lawful

/-- A call adds an edge if it resolves to a function that is there. -/
def addCall (store : EdgeStore γ) (m : Module) (caller : FuncId) (g : γ)
    (e : Position × Call) : γ :=
  match e.2.callee.resolve? with
  | none => g
  | some callee => if m.funcs.contains callee then store.addEdge caller callee g else g

/-- The functions are added first, and then the calls of one function after the other. -/
def ofCalls (store : EdgeStore γ) (m : Module) : γ :=
  m.funcs.entries.foldl (fun g e => e.2.calls.foldl (store.addCall m e.1) g)
    (m.funcs.ids.foldl (fun g id => store.addNode id g) store.empty)

theorem foldl_addCall (store : EdgeStore γ) (m : Module) (caller : FuncId) (f : Func) (g : γ) :
    f.calls.foldl (store.addCall m caller) g =
      ((f.callees.filter m.funcs.contains).map fun callee => (caller, callee)).foldl
        (fun g e => store.addEdge e.1 e.2 g) g := by
  rw [List.foldl_map, List.foldl_filter, Func.callees, List.foldl_filterMap]
  refine congrArg (List.foldl · g f.calls) (funext₂ fun g e => ?_)
  rw [addCall]
  cases e.2.callee.resolve? <;> rfl

theorem ofCalls_eq (store : EdgeStore γ) (m : Module) : store.ofCalls m =
    (CallGraph.ofModule m).edges.foldl (fun g e => store.addEdge e.1 e.2 g)
      (m.funcs.ids.foldl (fun g id => store.addNode id g) store.empty) := by
  rw [ofCalls, CallGraph.ofModule, List.foldl_flatMap]
  exact congrArg (List.foldl · _ _) (funext₂ fun g e => store.foldl_addCall m e.1 e.2 g)

/-- All ways to store the graph agree on the callers. -/
theorem Lawful.incoming_ofCalls (h : store.Lawful) (m : Module) (id : FuncId) :
    store.incoming id (store.ofCalls m) = (CallGraph.ofModule m).callers id := by
  rw [ofCalls_eq]
  exact h.incoming_foldl_addEdge (h.incoming_foldl_addNode _ id) _

end EdgeStore

namespace Module

/-- `callers` has the functions that call `id`, once each and in the order of the arena. -/
structure ListsCallers (m : Module) (id : FuncId) (callers : List FuncId) : Prop where
  once : callers.Nodup
  order : callers.Sublist m.funcs.ids
  mem_iff : ∀ caller, caller ∈ callers ↔ ∃ site ∈ m.callSites id, site.caller = caller

theorem map_caller_callSites (m : Module) (id : FuncId) : (m.callSites id).map (·.caller) =
    m.funcs.entries.flatMap fun e => List.replicate (e.2.callees.count id) e.1 := by
  rw [callSites, List.map_flatMap]
  refine List.flatMap_congr fun e _ => ?_
  have hcount : e.2.callees.count id =
      (e.2.calls.filter fun c => c.2.callee.resolve? == some id).length := by
    rw [Func.callees, List.count_filterMap, ← List.countP_eq_length_filter]
  rw [hcount, List.map_map]
  exact List.map_const'

end Module

namespace CallGraph

variable {m : Module} {id : FuncId}

theorem callers_ofModule (hid : m.funcs.contains id = true) :
    (ofModule m).callers id = ((m.callSites id).map (·.caller)).eraseDups := by
  rw [callers, ofModule, List.filter_flatMap, List.map_flatMap, Module.map_caller_callSites]
  refine congrArg List.eraseDups (List.flatMap_congr fun e _ => ?_)
  have hlive : (e.2.callees.filter m.funcs.contains).countP (· = id) = e.2.callees.count id := by
    rw [List.countP_filter, List.count_eq_countP]
    refine List.countP_congr fun callee _ => ?_
    simp only [Bool.and_eq_true, decide_eq_true_eq, beq_iff_eq]
    exact and_iff_left_of_imp fun heq => heq ▸ hid
  rw [List.filter_map, List.map_map, ← hlive, List.countP_eq_length_filter]
  exact List.map_const'

/-- The graph misses no call of a function that is there, and makes none up. -/
theorem callers_eq_nil_iff (hid : m.funcs.contains id = true) :
    (ofModule m).callers id = [] ↔ m.callSites id = [] := by
  rw [callers_ofModule hid, eraseDups_eq_nil_iff, List.map_eq_nil_iff]

theorem listsCallers_ofModule (hid : m.funcs.contains id = true) :
    m.ListsCallers id ((ofModule m).callers id) := by
  have hcallers : (ofModule m).callers id =
      (m.funcs.entries.filter fun e => e.2.callees.count id ≠ 0).map (·.1) := by
    rw [callers_ofModule hid, Module.map_caller_callSites]
    exact eraseDups_flatMap_replicate m.funcs.nodup_ids _
  have hsublist : ((ofModule m).callers id).Sublist m.funcs.ids :=
    hcallers ▸ List.filter_sublist.map _
  refine ⟨hsublist.nodup m.funcs.nodup_ids, hsublist, fun caller => ?_⟩
  rw [callers_ofModule hid, List.mem_eraseDups, List.mem_map]

/-- Edges in the order in which they are added. -/
def store : EdgeStore CallGraph where
  empty := ⟨[]⟩
  addNode _ g := g
  addEdge caller callee g := ⟨g.edges ++ [(caller, callee)]⟩
  incoming callee g := g.callers callee

theorem store_lawful : store.Lawful where
  incoming_empty _ := rfl
  incoming_addNode _ _ _ := rfl
  incoming_addEdge a b g h := (callers_concat g.edges (a, b) b).trans (if_pos ⟨rfl, h⟩)
  incoming_addEdge_again a b g h :=
    (callers_concat g.edges (a, b) b).trans (if_neg fun hnew => hnew.2 h)
  incoming_addEdge_other a b c g h :=
    (callers_concat g.edges (a, b) c).trans (if_neg fun hnew => h hnew.1.symm)

/-- What a graph of the calls answers for a function that is there: the functions with a call site
of it, itself included if it is recursive, once each and in the order of the arena. -/
theorem callers_listed {γ : Type} {graph : EdgeStore γ} (hgraph : graph.Lawful)
    (hid : m.funcs.contains id = true) :
    graph.incoming id (graph.ofCalls m) = (ofModule m).callers id ∧
      m.ListsCallers id ((ofModule m).callers id) :=
  ⟨hgraph.incoming_ofCalls m id, listsCallers_ofModule hid⟩

/-- A function that makes the calls, one after the other. -/
def calling (name : String) (callees : List Callee) : Func where
  name
  params := []
  retTy := .void
  body := .ofList [(.entry,
    ⟨callees.map fun callee => .call ⟨none, .void, callee, [], .c⟩, .ret none⟩)]

/-- The second function calls itself in two ways.  The one in the first slot came last, and calls
what was in its slot before. -/
def recursion : Module where
  funcs := (((Arena.ofList [calling "first" [],
    calling "recursive" [.direct ⟨2, 1⟩, .direct ⟨3, 1⟩, .indirect (.func ⟨2, 1⟩)],
    calling "casting" [.cast ⟨2, 1⟩, .indirect (.arg 0), .cast ⟨2, 1⟩]]).erase ⟨1, 1⟩).insert
      (calling "last" [.direct ⟨1, 1⟩, .direct ⟨2, 1⟩])).2

theorem recursion_callers_listed :
    store.incoming ⟨2, 1⟩ (store.ofCalls recursion) = [⟨1, 3⟩, ⟨2, 1⟩, ⟨3, 1⟩] ∧
      recursion.ListsCallers ⟨2, 1⟩ [⟨1, 3⟩, ⟨2, 1⟩, ⟨3, 1⟩] := by
  have hid : recursion.funcs.contains ⟨2, 1⟩ = true := by decide +kernel
  obtain ⟨heq, hlists⟩ := callers_listed store_lawful hid
  have hcallers : (ofModule recursion).callers ⟨2, 1⟩ = [⟨1, 3⟩, ⟨2, 1⟩, ⟨3, 1⟩] := by
    decide +kernel
  rw [hcallers] at heq hlists
  exact ⟨heq, hlists⟩

end CallGraph

end KernelIR
