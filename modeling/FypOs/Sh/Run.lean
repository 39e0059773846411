import FypOs.Sh.Cmd

/-!
# Sh — running a command

`runcmd` of `user/sh.c`, as far as descriptors are concerned: `open`, `dup` and `pipe` return the lowest free
descriptors, and a fork copies the table of the process.

* `runcmd_visits`: every node is run, unless a system call fails.
* `shell_descriptors`: each descriptor refers to what it should, and no other is open.
-/

namespace FypOs.Sh

open Function List

/-- The way from a node to one below it. -/
inductive Dir where
  | cmd
  | left
  | right
  deriving DecidableEq

abbrev Path : Type := List Dir

def Cmd.child : Command → Dir → Option Command
  | redir c _ _ _, .cmd => some c
  | back c, .cmd => some c
  | pipe l _, .left => some l
  | list l _, .left => some l
  | pipe _ r, .right => some r
  | list _ r, .right => some r
  | _, _ => none

/-- What a descriptor refers to: what the shell had there, the file of a redirection, or an end of a pipe.  The
latter two are named by their nodes. -/
inductive Obj where
  | shell (fd : Fin 3)
  | file (node : Path) (name : List UInt8) (mode : UInt32)
  | pipeRead (node : Path)
  | pipeWrite (node : Path)
  deriving DecidableEq

/-! ### Descriptor tables -/

/-- The table of open files of a process. -/
abbrev Table : Type := Nat → Option Obj

namespace Table

/-- `fdalloc`: the lowest free descriptor. -/
def lowest (t : Table) : Option Nat := (List.range NOFILE).find? fun fd => t fd = none

def close (t : Table) (fd : Nat) : Table := update t fd none

/-- Open something: the descriptor, and the table with it. -/
def opens (t : Table) (o : Obj) : Option (Nat × Table) :=
  t.lowest.map fun fd => (fd, update t fd (some o))

/-- The shell does not look at the result of `dup`. -/
def dup (t : Table) (fd : Nat) : Table :=
  match t fd, t.lowest with
  | some o, some fd' => update t fd' (some o)
  | _, _ => t

def pipe (t : Table) (r w : Obj) : Option (Nat × Nat × Table) := do
  let (fd0, t) ← t.opens r
  let (fd1, t) ← t.opens w
  pure (fd0, fd1, t)

end Table

/-! ### runcmd -/

/-- What a process does at a node, once it has set up its descriptors. -/
inductive Act where
  /-- It calls `runcmd`. -/
  | call
  | exec
  /-- It waits for its children, or exits. -/
  | wait
  deriving DecidableEq

structure Point where
  node : Path
  act : Act
  table : Table

/-- The system calls at a node that may fail. -/
inductive Try where
  | open
  | pipe
  | fork (first : Bool)
  deriving DecidableEq

/-- The points that the processes of a command come to.  The process that calls `runcmd` has table `t`; `ok` says
which system calls succeed. -/
def runcmd (ok : Path → Try → Bool) : Command → Path → Table → List Point
  | .exec argv, node, t => ⟨node, .call, t⟩ :: if argv = [] then [] else [⟨node, .exec, t⟩]
  | .redir c file mode fd, node, t =>
    ⟨node, .call, t⟩ ::
      if ok node .open then
        match (t.close fd).opens (.file node file mode) with
        | none => []
        | some (_, t) => runcmd ok c (node ++ [.cmd]) t
      else []
  | .list l r, node, t =>
    ⟨node, .call, t⟩ ::
      if ok node (.fork true) then
        runcmd ok l (node ++ [.left]) t ++ ⟨node, .wait, t⟩ :: runcmd ok r (node ++ [.right]) t
      else []
  | .pipe l r, node, t =>
    ⟨node, .call, t⟩ ::
      if ok node .pipe then
        match t.pipe (.pipeRead node) (.pipeWrite node) with
        | none => []
        | some (p0, p1, t) =>
          if ok node (.fork true) then
            runcmd ok l (node ++ [.left]) ((((t.close 1).dup p1).close p0).close p1) ++
              if ok node (.fork false) then
                runcmd ok r (node ++ [.right]) ((((t.close 0).dup p0).close p0).close p1) ++
                  [⟨node, .wait, (t.close p0).close p1⟩]
              else []
          else []
      else []
  | .back c, node, t =>
    ⟨node, .call, t⟩ ::
      if ok node (.fork true) then runcmd ok c (node ++ [.cmd]) t ++ [⟨node, .wait, t⟩] else []

/-! ### What a descriptor should refer to -/

/-- What the way from a node in one direction binds descriptor `k` to. -/
def rebind : Command → Dir → Path → Fin 3 → Option Obj
  | .redir _ file mode fd, .cmd, node, k => if k = fd then some (.file node file mode) else none
  | .pipe .., .left, node, k => if k = stdout then some (.pipeWrite node) else none
  | .pipe .., .right, node, k => if k = stdin then some (.pipeRead node) else none
  | _, _, _, _ => none

/-- What the innermost node binds descriptor `k` to, of those on the way from the node `above` with command `c`
down a path; if there is one. -/
def innermost : Command → Path → Path → Fin 3 → Option Obj
  | _, [], _, _ => none
  | c, d :: ds, above, k =>
    match c.child d with
    | none => none
    | some c' => (innermost c' ds (above ++ [d]) k).or (rebind c d above k)

/-- The table in which exactly the three standard descriptors are open. -/
def std (b : Fin 3 → Obj) : Table := fun n => if h : n < 3 then some (b ⟨n, h⟩) else none

section

variable {b : Fin 3 → Obj} {t : Table} {n : Nat}

lemma std_val (b : Fin 3 → Obj) (k : Fin 3) : std b k = some (b k) := dif_pos k.isLt

lemma std_of_ge (b : Fin 3 → Obj) (h : 3 ≤ n) : std b n = none := dif_neg (by omega)

lemma lowest_eq (hn : n < NOFILE) (hfree : t n = none) (hused : ∀ m, m < n → t m ≠ none) :
    t.lowest = some n := by
  rw [Table.lowest, find?_range_eq_some]
  refine ⟨decide_eq_true hfree, mem_range.mpr hn, fun m hm => ?_⟩
  simpa using hused m hm

/-- Binding a standard descriptor again: closed, it is the lowest free one. -/
lemma rebind_std (b : Fin 3 → Obj) (k : Fin 3) (o : Obj) :
    ((std b).close k).opens o = some (k.val, std (update b k o)) := by
  have hlow : ((std b).close k).lowest = some k.val := by
    refine lowest_eq (Nat.lt_trans k.isLt (by decide)) (update_self ..) fun m hm => ?_
    have hm3 : m < 3 := Nat.lt_trans hm k.isLt
    rw [Table.close, update_of_ne hm.ne, std, dif_pos hm3]
    exact Option.some_ne_none _
  rw [Table.opens, hlow, Option.map_some]
  refine congrArg (fun t => some (k.val, t)) (funext fun m => ?_)
  by_cases hm : m = k
  · subst hm
    rw [update_self, std_val, update_self]
  · rw [update_of_ne hm, Table.close, update_of_ne hm, std, std]
    split
    · rw [update_of_ne fun e => hm (congrArg Fin.val e)]
    · rfl

/-- The table after `pipe`. -/
def withPipe (b : Fin 3 → Obj) (r w : Obj) : Table :=
  update (update (std b) 3 (some r)) 4 (some w)

lemma withPipe_std (b : Fin 3 → Obj) (r w : Obj) (h : n < 3) : withPipe b r w n = std b n := by
  rw [withPipe, update_of_ne (by omega), update_of_ne (by omega)]

lemma std_used (b : Fin 3 → Obj) (h : n < 3) : std b n ≠ none := by
  rw [std, dif_pos h]
  exact Option.some_ne_none _

lemma pipe_std (b : Fin 3 → Obj) (r w : Obj) : (std b).pipe r w = some (3, 4, withPipe b r w) := by
  have h3 : (std b).lowest = some 3 :=
    lowest_eq (by decide) (std_of_ge b (Nat.le_refl 3)) fun m hm => std_used b hm
  have h4 : Table.lowest (update (std b) 3 (some r)) = some 4 := by
    refine lowest_eq (by decide) ?_ fun m hm => ?_
    · rw [update_of_ne (by decide)]
      exact std_of_ge b (by decide)
    · by_cases hm3 : m = 3
      · rw [hm3, update_self]
        exact Option.some_ne_none _
      · rw [update_of_ne hm3]
        exact std_used b (by omega)
  simp only [Table.pipe, Table.opens, h3, Option.map_some, Option.bind_eq_bind, Option.bind_some, h4,
    Option.pure_def, withPipe]

/-- The process that has made the pipe closes both ends. -/
lemma pipe_parent (b : Fin 3 → Obj) (r w : Obj) : ((withPipe b r w).close 3).close 4 = std b := by
  funext m
  rw [Table.close, Table.close, withPipe]
  by_cases h4 : m = 4
  · rw [h4, update_self]
    exact (std_of_ge b (by decide)).symm
  by_cases h3 : m = 3
  · rw [h3, update_of_ne (by decide), update_self]
    exact (std_of_ge b (Nat.le_refl 3)).symm
  · rw [update_of_ne h4, update_of_ne h3, update_of_ne h4, update_of_ne h3]

/-- A child puts its end in the place of a standard descriptor, and closes both. -/
lemma pipe_child (b : Fin 3 → Obj) (r w : Obj) (k : Fin 3) {p : Nat} {o : Obj} (hp : 3 ≤ p)
    (ho : withPipe b r w p = some o) :
    ((((withPipe b r w).close k).dup p).close 3).close 4 = std (update b k o) := by
  have hne : p ≠ k := by omega
  have hlow : ((withPipe b r w).close k).lowest = some k.val := by
    refine lowest_eq (Nat.lt_trans k.isLt (by decide)) (update_self ..) fun m hm => ?_
    rw [Table.close, update_of_ne hm.ne, withPipe_std b r w (by omega)]
    exact std_used b (by omega)
  have hdup : ((withPipe b r w).close k).dup p = update (withPipe b r w) k (some o) := by
    have hclosed : ((withPipe b r w).close k) p = some o := by
      rw [Table.close, update_of_ne hne, ho]
    rw [Table.dup, hclosed, hlow]
    exact update_idem ..
  have hcomm : withPipe (update b k o) r w = update (withPipe b r w) k (some o) := by
    funext m
    by_cases hm : m < 3
    · rw [withPipe_std _ r w hm, std, dif_pos hm]
      by_cases hk : m = k
      · subst hk
        rw [update_self, update_self]
      · rw [update_of_ne hk, update_of_ne fun e => hk (congrArg Fin.val e),
          withPipe_std b r w hm, std, dif_pos hm]
    · have hk : m ≠ k := by omega
      rw [update_of_ne hk, withPipe, withPipe]
      simp only [update_apply, std, dif_neg hm]
  rw [hdup, ← hcomm, pipe_parent]

/-! ### Every point of a run -/

variable {ok : Path → Try → Bool} {c : Command} {pt : Point}

/-- The bindings below a node, from those at the node. -/
def bound (c : Command) (path above : Path) (b : Fin 3 → Obj) (k : Fin 3) : Obj :=
  (innermost c path above k).getD (b k)

/-- The point is at the end of a path from the node `above`, and its table is the standard one that the path
asks for. -/
def Right (c : Command) (above : Path) (b : Fin 3 → Obj) (pt : Point) : Prop :=
  ∃ path, pt.node = above ++ path ∧ pt.table = std (bound c path above b)

lemma right_here (c : Command) (above : Path) (b : Fin 3 → Obj) (act : Act) :
    Right c above b ⟨above, act, std b⟩ := ⟨[], (append_nil _).symm, rfl⟩

lemma Right.down {c c' : Command} {d : Dir} {above : Path} {b b' : Fin 3 → Obj} (hc : c.child d = some c')
    (hb : ∀ k, b' k = (rebind c d above k).getD (b k)) (h : Right c' (above ++ [d]) b' pt) :
    Right c above b pt := by
  obtain ⟨path, hnode, htable⟩ := h
  refine ⟨d :: path, by rw [hnode, append_assoc]; rfl, ?_⟩
  rw [htable]
  refine congrArg std (funext fun k => ?_)
  rw [bound, bound, innermost, hc, hb]
  dsimp only
  cases innermost c' path (above ++ [d]) k with
  | none => rfl
  | some o => rfl

lemma update_getD (b : Fin 3 → Obj) (k k' : Fin 3) (o : Obj) :
    update b k o k' = (if k' = k then some o else none).getD (b k') := by
  rw [update_apply]
  split <;> rfl

/-- **Every point of a run** has the standard table that its path asks for. -/
lemma runcmd_right (ok : Path → Try → Bool) (c : Command) (above : Path) (b : Fin 3 → Obj) :
    ∀ pt ∈ runcmd ok c above (std b), Right c above b pt := by
  induction c generalizing above b with
  | exec argv =>
    intro pt hpt
    rw [runcmd] at hpt
    rcases mem_cons.mp hpt with rfl | hpt
    · exact right_here ..
    · split at hpt
      · cases hpt
      · rw [mem_singleton.mp hpt]
        exact right_here ..
  | redir c file mode fd ih =>
    intro pt hpt
    rw [runcmd, rebind_std] at hpt
    rcases mem_cons.mp hpt with rfl | hpt
    · exact right_here ..
    · split at hpt
      · exact (ih _ _ pt hpt).down rfl fun k => update_getD b fd k _
      · cases hpt
  | pipe l r ihl ihr =>
    intro pt hpt
    rw [runcmd, pipe_std] at hpt
    rcases mem_cons.mp hpt with rfl | hpt
    · exact right_here ..
    split at hpt
    · dsimp only at hpt
      rw [pipe_parent] at hpt
      split at hpt
      · have hleft := pipe_child b (.pipeRead above) (.pipeWrite above) stdout (p := 4) (by decide) rfl
        rcases mem_append.mp hpt with hpt | hpt
        · rw [show (stdout : Nat) = 1 from rfl] at hleft
          rw [hleft] at hpt
          exact (ihl _ _ pt hpt).down rfl fun k => update_getD b stdout k _
        split at hpt
        · have hright := pipe_child b (.pipeRead above) (.pipeWrite above) stdin (p := 3) (by decide) rfl
          rw [show (stdin : Nat) = 0 from rfl] at hright
          rcases mem_append.mp hpt with hpt | hpt
          · rw [hright] at hpt
            exact (ihr _ _ pt hpt).down rfl fun k => update_getD b stdin k _
          · rw [mem_singleton.mp hpt]
            exact right_here ..
        · cases hpt
      · cases hpt
    · cases hpt
  | list l r ihl ihr =>
    intro pt hpt
    rw [runcmd] at hpt
    rcases mem_cons.mp hpt with rfl | hpt
    · exact right_here ..
    split at hpt
    · rcases mem_append.mp hpt with hpt | hpt
      · exact (ihl _ _ pt hpt).down rfl fun k => rfl
      · rcases mem_cons.mp hpt with rfl | hpt
        · exact right_here ..
        · exact (ihr _ _ pt hpt).down rfl fun k => rfl
    · cases hpt
  | back c ih =>
    intro pt hpt
    rw [runcmd] at hpt
    rcases mem_cons.mp hpt with rfl | hpt
    · exact right_here ..
    split at hpt
    · rcases mem_append.mp hpt with hpt | hpt
      · exact (ih _ _ pt hpt).down rfl fun k => rfl
      · rw [mem_singleton.mp hpt]
        exact right_here ..
    · cases hpt

/-- The command at the end of a path. -/
def Cmd.at : Command → Path → Option Command
  | c, [] => some c
  | c, d :: ds => (c.child d).bind fun c' => c'.at ds

lemma call_mem (ok : Path → Try → Bool) (c : Command) (above : Path) (t : Table) :
    ⟨above, .call, t⟩ ∈ runcmd ok c above t := by
  cases c <;> exact mem_cons_self

/-- If every system call succeeds, `runcmd` is called on every node. -/
lemma runcmd_visits (path : Path) {c' : Command} (above : Path) (b : Fin 3 → Obj) (h : c.at path = some c') :
    ∃ pt ∈ runcmd (fun _ _ => true) c above (std b), pt.node = above ++ path ∧ pt.act = .call := by
  induction path generalizing c above b with
  | nil => exact ⟨_, call_mem _ c above _, (append_nil _).symm, rfl⟩
  | cons d ds ih =>
    rw [Cmd.at, Option.bind_eq_some_iff] at h
    obtain ⟨c1, hc, h⟩ := h
    -- the points of a child of the node are points of the node
    have hsub : ∃ b', ∀ pt ∈ runcmd (fun _ _ => true) c1 (above ++ [d]) (std b'),
        pt ∈ runcmd (fun _ _ => true) c above (std b) := by
      cases c with
      | exec argv => cases d <;> cases hc
      | redir c file mode fd =>
        cases d <;> cases hc
        refine ⟨update b fd (.file above file mode), fun pt hpt => ?_⟩
        rw [runcmd, rebind_std]
        exact mem_cons_of_mem _ hpt
      | pipe l r =>
        cases d <;> cases hc
        · refine ⟨update b stdout (.pipeWrite above), fun pt hpt => ?_⟩
          rw [runcmd, pipe_std]
          rw [← pipe_child b (.pipeRead above) (.pipeWrite above) stdout (p := 4) (by decide) rfl] at hpt
          exact mem_cons_of_mem _ (mem_append_left _ hpt)
        · refine ⟨update b stdin (.pipeRead above), fun pt hpt => ?_⟩
          rw [runcmd, pipe_std]
          rw [← pipe_child b (.pipeRead above) (.pipeWrite above) stdin (p := 3) (by decide) rfl] at hpt
          exact mem_cons_of_mem _ (mem_append_right _ (mem_append_left _ hpt))
      | list l r =>
        cases d <;> cases hc
        · exact ⟨b, fun pt hpt => mem_cons_of_mem _ (mem_append_left _ hpt)⟩
        · exact ⟨b, fun pt hpt =>
            mem_cons_of_mem _ (mem_append_right _ (mem_cons_of_mem _ hpt))⟩
      | back c =>
        cases d <;> cases hc
        exact ⟨b, fun pt hpt => mem_cons_of_mem _ (mem_append_left _ hpt)⟩
    obtain ⟨b', hsub⟩ := hsub
    obtain ⟨pt, hpt, hnode, hact⟩ := ih (above ++ [d]) b' h
    exact ⟨pt, hsub pt hpt, by rw [hnode, append_assoc]; rfl, hact⟩

/-- The write end of a pipe is bound on the way into its left side only. -/
lemma innermost_pipeWrite {path above node : Path} {k : Fin 3}
    (h : innermost c path above k = some (.pipeWrite node)) : node ++ [.left] <+: above ++ path := by
  induction path generalizing c above with
  | nil => cases h
  | cons d ds ih =>
    rw [innermost] at h
    split at h
    · cases h
    · rename_i c' hc
      rw [Option.or_eq_some_iff] at h
      rcases h with h | ⟨-, h⟩
      · have := ih h
        rwa [append_assoc] at this
      · have hnode : d = .left ∧ above = node := by
          unfold rebind at h
          split at h
          · split at h
            · cases h
            · cases h
          · split at h
            · exact ⟨rfl, by cases h; rfl⟩
            · cases h
          · split at h
            · cases h
            · cases h
          · cases h
        obtain ⟨rfl, rfl⟩ := hnode
        exact ⟨ds, by rw [append_assoc]; rfl⟩

end

/-- **The descriptors of the shell.**  A command is run by a process in which exactly the three standard descriptors
are open.  At every call of `runcmd` and at every `exec`, and wherever a process waits, exactly these three are
open, and each refers to what the innermost node on the way to the command has bound it to, or to what the shell
had; and only the left side of a pipe has its write end. -/
theorem shell_descriptors (ok : Path → Try → Bool) (c : Command) :
    ∀ pt ∈ runcmd ok c [] (std .shell), (∀ n, pt.table n ≠ none ↔ n < 3) ∧
      (∀ k : Fin 3, pt.table k = some ((innermost c pt.node [] k).getD (.shell k))) ∧
      ∀ n node, pt.table n = some (.pipeWrite node) → node ++ [.left] <+: pt.node := by
  intro pt hpt
  obtain ⟨path, hnode, htable⟩ := runcmd_right ok c [] .shell pt hpt
  rw [nil_append] at hnode
  subst hnode
  refine ⟨fun n => ?_, fun k => ?_, fun n node h => ?_⟩
  · rw [htable]
    refine ⟨fun h => ?_, std_used _⟩
    by_contra hge
    exact h (std_of_ge _ (by omega))
  · rw [htable, std_val]
    rfl
  · rw [htable, std] at h
    split at h
    · have h := Option.some.inj h
      rw [bound] at h
      cases hi : innermost c pt.node [] ⟨n, ‹_›⟩ with
      | none =>
        rw [hi] at h
        cases h
      | some o =>
        rw [hi] at h
        cases h
        exact innermost_pipeWrite hi
    · cases h

/-- The left side of a pipe writes to the pipe. -/
theorem shell_descriptors_pipe : ∃ pt ∈ runcmd (fun _ _ => true) (.pipe (.exec [[97]]) (.exec [[98]])) [] (std .shell),
    pt.node = [.left] ∧ pt.table 1 = some (.pipeWrite []) := by
  obtain ⟨pt, hpt, hnode, -⟩ := runcmd_visits (c := .pipe (.exec [[97]]) (.exec [[98]])) [.left] [] .shell rfl
  refine ⟨pt, hpt, hnode, ?_⟩
  have h := (shell_descriptors _ _ pt hpt).2.1 stdout
  rw [hnode] at h
  exact h

end FypOs.Sh
