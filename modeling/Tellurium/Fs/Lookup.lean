import Tellurium.Fs.Vfs
import Mathlib.Data.List.TakeWhile

/-!
Path lookup (`kernel/fs/vfs.c`, `vfs_path_to_node`) against the component walk it implements.
A path is split at its slashes, empty components dropped; the walk follows the rest from
directory to directory by exact name. The token loop does the same, except where a component
is missing: the directory's file system is then asked to open it, and a directory that does
not belong to a mounted file system has none.
-/

namespace Tellurium.Vfs

open Tellurium.Flibc

/-! ### The component walk -/

/-- The components of a path: what stands between its slashes, if anything does. -/
def components (path : List Char) : List (List Char) :=
  (path.splitOn '/').filter fun name => !name.isEmpty

def IsDir (s : State) (node : Nat) : Prop := sIsDir (s.nodes node).stat.stMode = true

/-- The child a name selects: the first of that name, which is the only one if the names in
a directory differ. -/
def ChildNamed (s : State) (parent : Nat) (name : List Char) (child : Nat) : Prop :=
  ∃ before after, (s.nodes parent).vChildren = before ++ child :: after ∧
    (s.nodes child).vName = name ∧ ∀ c ∈ before, (s.nodes c).vName ≠ name

/-- Following the names from `cur` leads to `node`, through directories only. -/
def Reaches (s : State) : Nat → List (List Char) → Nat → Prop
  | cur, [], node => node = cur
  | cur, name :: names, node =>
      IsDir s cur ∧ ∃ child, ChildNamed s cur name child ∧ Reaches s child names node

/-- The names a non-empty path asks for, seen from the base: an absolute path starts at the
root, a relative one names the base first. -/
def lookupNames (s : State) (vBase : Nat) (path : List Char) : Option (List (List Char)) :=
  if path.head? = some '/' then
    if vBase = vRoot then some (components path) else none
  else
    match components path with
    | [] => none
    | first :: names => if first = (s.nodes vBase).vName then some names else none

/-- What a path means; the empty one is the root, seen from the root. -/
def Resolves (s : State) (vBase : Nat) (path : List Char) (node : Nat) : Prop :=
  if path = [] then vBase = vRoot ∧ node = vRoot
  else IsDir s vBase ∧ ∃ names, lookupNames s vBase path = some names ∧
    Reaches s vBase names node

/-- Following the names from `cur` gets stuck in a directory outside every mounted file
system. -/
def StuckUnmounted (s : State) (cur : Nat) (names : List (List Char)) : Prop :=
  ∃ passed name rest dir, names = passed ++ name :: rest ∧ Reaches s cur passed dir ∧
    IsDir s dir ∧ (∀ child, ¬ ChildNamed s dir name child) ∧ (s.nodes dir).vfsops = none

section Tokens

theorem components_nil : components [] = [] := rfl

theorem components_append (front back : List Char) :
    components (front ++ '/' :: back) = components front ++ components back := by
  rw [components, List.splitOn_append_cons_self, List.filter_append]
  rfl

theorem components_slash (path : List Char) : components ('/' :: path) = components path := by
  simpa [components_nil] using components_append [] path

theorem components_name {name : List Char} (hne : name ≠ []) (hslash : '/' ∉ name) :
    components name = [name] := by
  rw [components, List.splitOn_eq_singleton hslash]
  simp [hne]

theorem drop_strspn (path del : List Char) :
    path.drop (strspn path del) = path.dropWhile (· ∈ del) := by
  have hsplit := List.takeWhile_append_dropWhile (p := (· ∈ del)) (l := path)
  rw [strspn]
  nth_rewrite 2 [← hsplit]
  exact List.drop_left

/-- Leading slashes do not count. -/
theorem components_drop_strspn (path : List Char) :
    components (path.drop (strspn path ['/'])) = components path := by
  induction path with
  | nil => rfl
  | cons c path ih =>
      by_cases hc : c = '/'
      · subst hc
        rw [components_slash, ← ih]
        simp [strspn]
      · simp [strspn, hc]

/-- A string is its first token, followed by nothing or by a slash. -/
theorem token_split {c : Char} (str : List Char) (hc : c ≠ '/') :
    ∃ tok, tok = (c :: str).take (strcspn (c :: str) ['/']) ∧ tok ≠ [] ∧ '/' ∉ tok ∧
      (c :: str = tok ∧ (c :: str).drop (strcspn (c :: str) ['/'] + 1) = [] ∨
        c :: str = tok ++ '/' :: (c :: str).drop (strcspn (c :: str) ['/'] + 1)) := by
  obtain ⟨tok, htok⟩ : ∃ tok, (c :: str).takeWhile (· ∉ ['/']) = tok := ⟨_, rfl⟩
  obtain ⟨back, hback⟩ : ∃ back, (c :: str).dropWhile (· ∉ ['/']) = back := ⟨_, rfl⟩
  have hsplit : c :: str = tok ++ back := by
    rw [← htok, ← hback, List.takeWhile_append_dropWhile]
  have hlen : strcspn (c :: str) ['/'] = tok.length := by rw [strcspn, htok]
  have hne : tok ≠ [] := by
    rw [← htok]
    simp [hc]
  have hslash : '/' ∉ tok := by
    intro hmem
    rw [← htok] at hmem
    simpa using List.mem_takeWhile_imp hmem
  rw [hlen, hsplit]
  refine ⟨tok, by simp, hne, hslash, ?_⟩
  cases back with
  | nil => simp
  | cons d back =>
      have hd : d = '/' := by
        have hhead := List.head?_dropWhile_not (· ∉ ['/']) (c :: str)
        rw [hback] at hhead
        simpa using hhead
      subst hd
      simp

/-- The tokeniser returns the components one by one. -/
theorem components_strtokR (path : List Char) :
    components path = match strtokR path ['/'] with
      | (none, _) => []
      | (some tok, rest) => tok :: components rest := by
  rw [← components_drop_strspn path]
  unfold strtokR
  cases hstr : path.drop (strspn path ['/']) with
  | nil => rfl
  | cons c str =>
      have hc : c ≠ '/' := by
        have hhead := List.head?_dropWhile_not (· ∈ ['/']) path
        rw [← drop_strspn, hstr] at hhead
        simpa using hhead
      obtain ⟨tok, htok, hne, hslash, ⟨heq, hrest⟩ | heq⟩ := token_split str hc
      · dsimp only
        rw [hrest, ← htok, components_nil, heq]
        exact components_name hne hslash
      · dsimp only
        rw [← htok]
        nth_rewrite 1 [heq]
        rw [components_append, components_name hne hslash, List.singleton_append]

end Tokens

/-- The token loop on the components. -/
def walkNames (s : State) : Nat → List (List Char) → Outcome Nat
  | curVnode, [] => .done curVnode
  | curVnode, name :: names =>
      if !sIsDir (s.nodes curVnode).stat.stMode then .err .invalidPath
      else
        match vfsGetChild s curVnode name with
        | some child => walkNames s child names
        | none =>
            match (s.nodes curVnode).vfsops with
            | none => .fault
            | some _ => .err .nodeMissing

section Walk

variable {s : State} {cur node vBase : Nat} {names : List (List Char)} {path : List Char}

theorem walk_eq_walkNames {fuel : Nat} (h : path.length < fuel) :
    walk s fuel cur path = walkNames s cur (components path) := by
  induction fuel generalizing cur path with
  | zero => omega
  | succ fuel ih =>
      rw [walk, components_strtokR path]
      cases htok : strtokR path ['/'] with
      | mk tok rest =>
          cases tok with
          | none => rfl
          | some tok =>
              have hrest := strtokR_rest_length htok
              have hnext : ∀ child, walk s fuel child rest = walkNames s child (components rest) :=
                fun child => ih (by omega)
              rw [walkNames]
              simp only [hnext]
              split_ifs
              · rfl
              · cases vfsGetChild s cur tok with
                | some child => rfl
                | none =>
                    cases (s.nodes cur).vfsops with
                    | none => rfl
                    | some fs => cases fs <;> rfl

/-- `vfs_get_child` finds the child a name selects. -/
theorem vfsGetChild_eq_some_iff {name : List Char} {child : Nat} :
    vfsGetChild s cur name = some child ↔ ChildNamed s cur name child := by
  rw [vfsGetChild, List.find?_eq_some_iff_append, ChildNamed]
  constructor
  · rintro ⟨hname, before, after, heq, hbefore⟩
    exact ⟨before, after, heq, by simpa using hname, fun c hc => by simpa using hbefore c hc⟩
  · rintro ⟨before, after, heq, hname, hbefore⟩
    exact ⟨by simpa using hname, before, after, heq, fun c hc => by simpa using hbefore c hc⟩

theorem vfsGetChild_eq_none_iff {name : List Char} :
    vfsGetChild s cur name = none ↔ ∀ child, ¬ ChildNamed s cur name child := by
  rw [Option.eq_none_iff_forall_ne_some]
  exact forall_congr' fun child => not_congr vfsGetChild_eq_some_iff

theorem ChildNamed.unique {name : List Char} {child c : Nat} (h : ChildNamed s cur name child)
    (hc : ChildNamed s cur name c) : c = child := by
  rw [← vfsGetChild_eq_some_iff] at h hc
  rw [h] at hc
  exact (Option.some.inj hc).symm

theorem walkNames_done_iff : walkNames s cur names = .done node ↔ Reaches s cur names node := by
  induction names generalizing cur with
  | nil =>
      rw [walkNames, Reaches, Outcome.done.injEq]
      exact eq_comm
  | cons name names ih =>
      rw [walkNames, Reaches, IsDir]
      cases hdir : sIsDir (s.nodes cur).stat.stMode with
      | false => simp
      | true =>
          cases hchild : vfsGetChild s cur name with
          | some child =>
              have hnamed := vfsGetChild_eq_some_iff.mp hchild
              simp only [Bool.not_true, Bool.false_eq_true, if_false, true_and]
              rw [ih]
              exact ⟨fun h => ⟨child, hnamed, h⟩, fun ⟨c, hc, h⟩ => hnamed.unique hc ▸ h⟩
          | none =>
              have hnone := vfsGetChild_eq_none_iff.mp hchild
              simp only [Bool.not_true, Bool.false_eq_true, if_false, true_and]
              cases (s.nodes cur).vfsops with
              | none => simp [hnone]
              | some fs => simp [hnone]

/-- A walk gets stuck at its first name or behind it. -/
theorem stuckUnmounted_cons {name : List Char} : StuckUnmounted s cur (name :: names) ↔
    IsDir s cur ∧ ((∀ child, ¬ ChildNamed s cur name child) ∧ (s.nodes cur).vfsops = none ∨
      ∃ child, ChildNamed s cur name child ∧ StuckUnmounted s child names) := by
  constructor
  · rintro ⟨passed, missing, rest, dir, heq, hreach, hdir, hnone, hops⟩
    cases passed with
    | nil =>
        obtain ⟨rfl, rfl⟩ := List.cons.inj heq
        rw [Reaches] at hreach
        subst hreach
        exact ⟨hdir, Or.inl ⟨hnone, hops⟩⟩
    | cons first passed =>
        obtain ⟨rfl, rfl⟩ := List.cons.inj heq
        obtain ⟨hcur, child, hchild, hreach⟩ := hreach
        exact ⟨hcur, Or.inr ⟨child, hchild, passed, missing, rest, dir, rfl, hreach, hdir,
          hnone, hops⟩⟩
  · rintro ⟨hcur, ⟨hnone, hops⟩ |
      ⟨child, hchild, passed, missing, rest, dir, rfl, hreach, hdir, hnone, hops⟩⟩
    · exact ⟨[], name, names, cur, rfl, rfl, hcur, hnone, hops⟩
    · exact ⟨name :: passed, missing, rest, dir, rfl, ⟨hcur, child, hchild, hreach⟩, hdir,
        hnone, hops⟩

/-- The walk goes through a null `vfsops` exactly if it gets stuck outside every mounted file
system. -/
theorem walkNames_fault_iff : walkNames s cur names = .fault ↔ StuckUnmounted s cur names := by
  induction names generalizing cur with
  | nil => simp [walkNames, StuckUnmounted]
  | cons name names ih =>
      rw [walkNames, stuckUnmounted_cons, IsDir]
      cases hdir : sIsDir (s.nodes cur).stat.stMode with
      | false => simp
      | true =>
          simp only [Bool.not_true, Bool.false_eq_true, if_false, true_and]
          cases hchild : vfsGetChild s cur name with
          | some child =>
              have hnamed := vfsGetChild_eq_some_iff.mp hchild
              simp only [ih]
              constructor
              · exact fun h => Or.inr ⟨child, hnamed, h⟩
              · rintro (⟨hnone, -⟩ | ⟨c, hc, h⟩)
                · exact absurd hnamed (hnone child)
                · exact hnamed.unique hc ▸ h
          | none =>
              have hnone := vfsGetChild_eq_none_iff.mp hchild
              cases (s.nodes cur).vfsops with
              | none => simp [hnone]
              | some fs => simp [hnone]

/-- A string that does not start with a slash starts with a token. -/
theorem strtokR_of_head (hne : path ≠ []) (hhead : path.head? ≠ some '/') :
    (strtokR path ['/']).1 ≠ none := by
  cases path with
  | nil => exact absurd rfl hne
  | cons c str =>
      have hc : c ≠ '/' := fun heq => hhead (by rw [heq]; rfl)
      have hspan : strspn (c :: str) ['/'] = 0 := by simp [strspn, hc]
      rw [strtokR, hspan]
      exact Option.some_ne_none _

/-- The lookup of a short path, by its components. -/
theorem vfsPathToNode_eq (hlen : path.length < vnodePathMax) (hne : path ≠ []) :
    vfsPathToNode s vBase path =
      match lookupNames s vBase path with
      | none => .err .invalidPath
      | some names =>
          if !sIsDir (s.nodes vBase).stat.stMode then .err .invalidPath
          else walkNames s vBase names := by
  rw [vfsPathToNode, if_neg (by omega), if_neg (by omega), if_neg hne, lookupNames]
  by_cases hhead : path.head? = some '/'
  · rw [if_pos hhead, if_pos hhead]
    by_cases hroot : vBase = vRoot
    · rw [if_neg (not_not.mpr hroot), if_pos hroot, walk_eq_walkNames (Nat.lt_succ_self _)]
    · rw [if_pos hroot, if_neg hroot]
  · rw [if_neg hhead, if_neg hhead, components_strtokR path]
    cases htok : strtokR path ['/'] with
    | mk tok rest =>
        cases tok with
        | none => exact absurd (by rw [htok]) (strtokR_of_head hne hhead)
        | some tok =>
            dsimp only
            by_cases hname : tok = (s.nodes vBase).vName
            · rw [if_neg (not_not.mpr hname), if_pos hname,
                walk_eq_walkNames (Nat.lt_succ_self _)]
            · rw [if_pos hname, if_neg hname]

/-- A short path is looked up by its meaning, whatever the directories. -/
theorem vfsPathToNode_done_iff (hlen : path.length < vnodePathMax) :
    vfsPathToNode s vBase path = .done node ↔ Resolves s vBase path node := by
  rw [Resolves]
  by_cases hne : path = []
  · subst hne
    rw [if_pos rfl, vfsPathToNode, if_neg (by simp), if_neg (by simp [vnodePathMax]), if_pos rfl]
    by_cases hroot : vBase = vRoot
    · rw [if_pos hroot, Outcome.done.injEq]
      exact ⟨fun h => ⟨hroot, h.symm⟩, fun h => h.2.symm⟩
    · simp [hroot]
  · rw [if_neg hne, vfsPathToNode_eq hlen hne, IsDir]
    cases lookupNames s vBase path with
    | none => simp
    | some names =>
        cases sIsDir (s.nodes vBase).stat.stMode with
        | false => simp
        | true => simp [walkNames_done_iff]

end Walk

/-- The names a path asks for lead from the base into a directory outside every mounted file
system that has no child of the next name. -/
def MissingUnmounted (s : State) (vBase : Nat) (path : List Char) : Prop :=
  path ≠ [] ∧ IsDir s vBase ∧ ∃ names, lookupNames s vBase path = some names ∧
    StuckUnmounted s vBase names

/-- What a lookup owes its caller: the node the path means, an error if it means none, and
never a call through a null table. -/
structure LookupOk (s : State) (vBase : Nat) (path : List Char) : Prop where
  found : ∀ node, vfsPathToNode s vBase path = .done node ↔ Resolves s vBase path node
  returns : vfsPathToNode s vBase path ≠ .fault

theorem vfsPathToNode_fault_iff {s : State} {vBase : Nat} {path : List Char}
    (hlen : path.length < vnodePathMax) :
    vfsPathToNode s vBase path = .fault ↔ MissingUnmounted s vBase path := by
  rw [MissingUnmounted]
  by_cases hne : path = []
  · subst hne
    rw [vfsPathToNode, if_neg (by simp), if_neg (by simp [vnodePathMax]), if_pos rfl]
    split_ifs <;> simp
  · rw [vfsPathToNode_eq hlen hne, IsDir]
    cases lookupNames s vBase path with
    | none => simp
    | some names =>
        cases sIsDir (s.nodes vBase).stat.stMode with
        | false => simp
        | true => simp [walkNames_fault_iff, hne]

/-- For every tree, base and short path, the lookup meets its specification exactly if no
component is missing in a directory outside every mounted file system. -/
theorem path_lookup_iff (s : State) (vBase : Nat) (path : List Char)
    (hlen : path.length < vnodePathMax) :
    LookupOk s vBase path ↔ ¬ MissingUnmounted s vBase path := by
  rw [← vfsPathToNode_fault_iff hlen]
  exact ⟨fun h => h.returns, fun h => ⟨fun node => vfsPathToNode_done_iff hlen, h⟩⟩

/-- The tree at boot: `/tmp` created and mounted. -/
def bootTree : State where
  nodes
    | 0 => {vfsAllocNode none [] .vdir with vChildren := [1]}
    | _ => fsMount .tmpfs 1 (vfsAllocNode (some 0) ['t', 'm', 'p'] .vdir)
  nodeCount := 2
  fsNodeCount := 1

/-- `/tmp/a` is missing in a directory with operations. -/
theorem path_lookup_iff_tmp : LookupOk bootTree vRoot ['/', 't', 'm', 'p', '/', 'a'] := by
  rw [path_lookup_iff bootTree vRoot _ (by decide), ← vfsPathToNode_fault_iff (by decide)]
  intro hfault
  cases hfault

/-- In the bare root, `/a` is missing in a directory without operations. -/
theorem missing_name_calls_null :
    vfsPathToNode vfsInit vRoot ['/', 'a'] = .fault ∧ ¬ LookupOk vfsInit vRoot ['/', 'a'] :=
  ⟨rfl, fun h => h.returns rfl⟩

end Tellurium.Vfs
