import EdgeCache.Files.Tree
import EdgeCache.Proofs.Text.Cutting
import Mathlib.Data.List.Induction

/-!
# Where paths lead

A walk that starts at the root ends at a *settled* place: the directories on the way there are
directories and not links, each name is one that a directory can hold, and the last node is there
and no link (`Tree.Settled`).  One step of a walk preserves this, whichever names and links it
meets, so the whole walk does (`Tree.settled_walk`).

The path that is written down for a settled place leads back to that place (`Tree.trace_path`), by a
walk that only goes down (`Tree.walk_append`).

Where a walk comes to a place, one that sees all the nodes it has seen comes to the same place
(`Tree.walk_mono`).  So a program that replaces the links itself comes to no other place than the
file system (`Tree.follow_of_canonical`), and to all of these if no node of the tree is out of reach
(`Tree.canonical_of_follow`).

A walk reads which nodes there are and where the links point, and nothing that is in a file
(`Tree.Like.walk_eq`).
-/

set_option autoImplicit false

namespace EdgeCache.Files

/-! ## Names -/

/-- A name that a directory can hold. -/
structure IsName (name : Bytes) : Prop where
  ne_nil : name ≠ []
  ne_dot : name ≠ dot
  ne_dotDot : name ≠ dotDot
  no_slash : 0x2F ∉ name
  short : name.length ≤ maxName

instance (name : Bytes) : Decidable (IsName name) :=
  decidable_of_iff (name ≠ [] ∧ name ≠ dot ∧ name ≠ dotDot ∧ 0x2F ∉ name ∧ name.length ≤ maxName)
    ⟨fun ⟨h₁, h₂, h₃, h₄, h₅⟩ => ⟨h₁, h₂, h₃, h₄, h₅⟩,
      fun h => ⟨h.ne_nil, h.ne_dot, h.ne_dotDot, h.no_slash, h.short⟩⟩

/-- The path can be looked up as a whole. -/
structure Admissible (path : Bytes) : Prop where
  no_nul : 0 ∉ path
  short : path.length ≤ maxPath

instance (path : Bytes) : Decidable (Admissible path) :=
  decidable_of_iff (0 ∉ path ∧ path.length ≤ maxPath)
    ⟨fun ⟨h₁, h₂⟩ => ⟨h₁, h₂⟩, fun h => ⟨h.no_nul, h.short⟩⟩

theorem no_slash_of_mem_names {path name : Bytes} (h : name ∈ names path) : 0x2F ∉ name :=
  Bytes.notMem_of_mem_splitOn h

theorem Place.path_of_ne_nil {p : Place} (h : p ≠ []) :
    Place.path p = p.flatMap fun name => 0x2F :: name := by
  rw [Place.path, if_neg (by simpa using h)]

theorem Place.isAbsolute_path (p : Place) : isAbsolute (Place.path p) = true := by
  cases p <;> rfl

theorem names_append (path rest : Bytes) :
    names (path ++ 0x2F :: rest) = names path ++ names rest :=
  Bytes.splitOn_append path rest

theorem names_flatMap {p : Place} (h : ∀ name ∈ p, 0x2F ∉ name) :
    names (p.flatMap fun name => 0x2F :: name) = [] :: p := by
  induction p using List.reverseRec with
  | nil => rfl
  | append_singleton above name ih =>
    have hname : names name = [name] := Bytes.splitOn_of_notMem (h name (by simp))
    rw [List.flatMap_append, List.flatMap_singleton, names_append, hname,
      ih fun n hn => h n (by simp [hn]), List.cons_append]

/-- What lies above a place in reach is in reach. -/
theorem inReach_of_prefix {above p : Place} (h : above <+: p)
    (hp : (Place.path p).length ≤ maxPath) : above.inReach = true := by
  rw [Place.inReach, decide_eq_true_eq]
  obtain rfl | habove := eq_or_ne above []
  · decide
  · obtain ⟨below, rfl⟩ := h
    rw [Place.path_of_ne_nil (by simp [habove]), List.flatMap_append, List.length_append] at hp
    rw [Place.path_of_ne_nil habove]
    omega

/-- Cut at its slashes, the path of a place gives the names of the place. -/
theorem names_path {p : Place} (hne : p ≠ []) (h : ∀ name ∈ p, 0x2F ∉ name) :
    names (Place.path p) = [] :: p := by
  rw [Place.path_of_ne_nil hne, names_flatMap h]

/-- Below the path of a place, a path is put after a slash. -/
theorem join_path {p : Place} {rest : Bytes} (hp : ∀ name ∈ p, IsName name)
    (hrest : isAbsolute rest = false) :
    join (Place.path p) rest = (p.flatMap fun name => 0x2F :: name) ++ 0x2F :: rest := by
  obtain rfl | ⟨above, name, rfl⟩ := List.eq_nil_or_concat p
  · simp [join, hrest, Place.path]
  · rw [List.concat_eq_append] at hp ⊢
    have hname : IsName name := hp name (by simp)
    -- the last byte is one of a name, and so no slash
    have hlast : (Place.path (above ++ [name])).getLast? ≠ some 0x2F := by
      rw [Place.path_of_ne_nil (by simp), List.flatMap_append, List.flatMap_singleton,
        List.getLast?_append, List.getLast?_cons, List.getLast?_eq_some_getLast hname.ne_nil]
      intro h
      exact hname.no_slash (Option.some.inj h ▸ List.getLast_mem hname.ne_nil)
    have hempty : (Place.path (above ++ [name])).isEmpty = false := by
      rw [Place.path_of_ne_nil (by simp)]
      cases above <;> rfl
    rw [join, hrest, if_neg Bool.false_ne_true, hempty, if_neg (by simpa using hlast),
      Place.path_of_ne_nil (by simp)]

theorem cons_joinWith {p : Place} (hne : p ≠ []) :
    0x2F :: Bytes.joinWith 0x2F p = p.flatMap fun name => 0x2F :: name := by
  induction p with
  | nil => exact absurd rfl hne
  | cons name p ih =>
    cases p with
    | nil => simp [Bytes.joinWith]
    | cons next p =>
      have hjoin : Bytes.joinWith 0x2F (name :: next :: p) =
          name ++ 0x2F :: Bytes.joinWith 0x2F (next :: p) := rfl
      rw [hjoin, ih (List.cons_ne_nil _ _), List.flatMap_cons (x := name), List.cons_append]

namespace Tree

variable {t : Tree} {seen : Place → Bool} {here p : Place}

@[simp]
theorem at?_nil (t : Tree) : t.at? [] = some .directory := rfl

/-! ## Places that walks come to -/

/-- The place is reached through directories alone, by names without links or dots. -/
structure Direct (t : Tree) (p : Place) : Prop where
  named : ∀ name ∈ p, IsName name
  through : ∀ n < p.length, t.at? (p.take n) = some .directory

instance (t : Tree) (p : Place) : Decidable (t.Direct p) :=
  decidable_of_iff ((∀ name ∈ p, IsName name) ∧ ∀ n < p.length, t.at? (p.take n) = some .directory)
    ⟨fun ⟨h₁, h₂⟩ => ⟨h₁, h₂⟩, fun h => ⟨h.named, h.through⟩⟩

theorem Direct.nil : t.Direct [] := ⟨by simp, by simp⟩

theorem Direct.of_append {q : Place} (h : t.Direct (p ++ q)) : t.Direct p where
  named name hname := h.named name (List.mem_append_left q hname)
  through n hn := by
    have hthrough := h.through n (by rw [List.length_append]; omega)
    rwa [List.take_append_of_le_length (Nat.le_of_lt hn)] at hthrough

/-- What a direct place lies below is a directory. -/
theorem Direct.above {q : Place} (h : t.Direct (p ++ q)) (hq : q ≠ []) :
    t.at? p = some .directory := by
  have hlength : p.length < (p ++ q).length := by
    have := List.length_pos_iff.2 hq
    rw [List.length_append]
    omega
  have hthrough := h.through p.length hlength
  rwa [List.take_left] at hthrough

theorem Direct.push {name : Bytes} (h : t.Direct p) (hp : t.at? p = some .directory)
    (hname : IsName name) : t.Direct (p ++ [name]) where
  named n hn := by
    obtain hn | rfl : n ∈ p ∨ n = name := by simpa using hn
    · exact h.named n hn
    · exact hname
  through n hn := by
    obtain hlt | rfl : n < p.length ∨ n = p.length := by
      rw [List.length_append, List.length_singleton] at hn
      omega
    · rw [List.take_append_of_le_length (Nat.le_of_lt hlt)]
      exact h.through n hlt
    · rwa [List.take_left]

/-- There is a node at the place, which is reached directly and is not a link. -/
structure Settled (t : Tree) (p : Place) : Prop where
  direct : t.Direct p
  there : ∃ node, t.at? p = some node ∧ ∀ target, node ≠ .link target

theorem Direct.settled {node : Node} (h : t.Direct p) (hp : t.at? p = some node)
    (hnode : ∀ target, node ≠ .link target) : t.Settled p :=
  ⟨h, node, hp, hnode⟩

theorem Settled.nil : t.Settled [] := Direct.nil.settled (at?_nil t) (by simp)

/-- Above a settled place everything is settled. -/
theorem Settled.of_append {q : Place} (h : t.Settled (p ++ q)) : t.Settled p := by
  cases q with
  | nil => rwa [List.append_nil] at h
  | cons name q =>
    exact h.direct.of_append.settled (h.direct.above (List.cons_ne_nil name q)) (by simp)

theorem Settled.dropLast (h : t.Settled p) : t.Settled p.dropLast := by
  obtain rfl | ⟨above, name, rfl⟩ := List.eq_nil_or_concat p
  · exact h
  · rw [List.concat_eq_append] at h ⊢
    rw [List.dropLast_concat]
    exact h.of_append

/-! ## Walking -/

section Steps

variable {links : Nat} {name : Bytes} {rest : List Bytes}

theorem walk_stay (h : t.at? here = some .directory) (hname : name = [] ∨ name = dot) :
    t.walk seen links here (name :: rest) = t.walk seen links here rest := by
  rw [walk, h]
  simp only [hname, if_true]

theorem walk_up (h : t.at? here = some .directory) :
    t.walk seen links here (dotDot :: rest) = t.walk seen links here.dropLast rest := by
  rw [walk, h]
  have hstay : ¬ (dotDot = [] ∨ dotDot = dot) := by decide
  simp only [hstay, if_false, if_true]

theorem walk_link {target : Bytes} (h : t.at? here = some .directory)
    (hstay : ¬ (name = [] ∨ name = dot)) (hup : name ≠ dotDot)
    (hlimit : ¬ (maxName < name.length ∨ seen (here ++ [name]) = false))
    (hlink : t.at? (here ++ [name]) = some (.link target)) :
    t.walk seen (links + 1) here (name :: rest) =
      t.walk seen links (if isAbsolute target then [] else here) (names target ++ rest) := by
  rw [walk, h]
  simp only [hstay, hup, hlimit, if_false, hlink]

theorem walk_down {node : Node} (h : t.at? here = some .directory)
    (hstay : ¬ (name = [] ∨ name = dot)) (hup : name ≠ dotDot)
    (hlimit : ¬ (maxName < name.length ∨ seen (here ++ [name]) = false))
    (hnode : t.at? (here ++ [name]) = some node) (hlink : ∀ target, node ≠ .link target) :
    t.walk seen links here (name :: rest) = t.walk seen links (here ++ [name]) rest := by
  rw [walk, h]
  simp only [hstay, hup, hlimit, if_false, hnode]

end Steps

/-- **A walk that starts at a settled place ends at one.** -/
theorem settled_walk {links : Nat} {todo : List Bytes} (hhere : t.Settled here)
    (htodo : ∀ name ∈ todo, 0x2F ∉ name) (h : t.walk seen links here todo = .ok p) :
    t.Settled p := by
  fun_induction t.walk seen links here todo with
  | case1 links here =>
    obtain rfl : here = p := by simpa using h
    exact hhere
  | case2 links here name rest hdir hstay ih =>
    exact ih hhere (List.forall_mem_cons.1 htodo).2 h
  | case3 links here rest hdir hname ih =>
    exact ih hhere.dropLast (List.forall_mem_cons.1 htodo).2 h
  | case4 => cases h
  | case5 => cases h
  | case6 => cases h
  | case7 here name rest hdir hstay hup hlimit target hlink fewer ih =>
    have hnames : ∀ n ∈ names target ++ rest, 0x2F ∉ n := by
      intro n hn
      obtain hn | hn := List.mem_append.1 hn
      · exact no_slash_of_mem_names hn
      · exact (List.forall_mem_cons.1 htodo).2 n hn
    refine ih ?_ hnames h
    split
    · exact .nil
    · exact hhere
  | case8 links here name rest hdir hstay hup hlimit node hlink hnode ih =>
    rw [not_or] at hstay
    have hname : IsName name :=
      ⟨hstay.1, hstay.2, hup, (List.forall_mem_cons.1 htodo).1,
        Nat.le_of_not_lt (not_or.1 hlimit).1⟩
    exact ih ((hhere.direct.push hdir hname).settled hnode hlink)
      (List.forall_mem_cons.1 htodo).2 h
  | case9 => cases h

/-- **Where a walk comes to a place, one that sees all the nodes it has seen comes to the same
place.** -/
theorem walk_mono {seen' : Place → Bool}
    (hle : ∀ q node, t.at? q = some node → seen q = true → seen' q = true) {links : Nat}
    {todo : List Bytes} (h : t.walk seen links here todo = .ok p) :
    t.walk seen' links here todo = .ok p := by
  have hseen : ∀ {place : Place} {node : Node} {name : Bytes}, t.at? place = some node →
      ¬ (maxName < name.length ∨ seen place = false) →
        ¬ (maxName < name.length ∨ seen' place = false) := by
    intro place node name hnode hno
    rw [not_or, Bool.not_eq_false] at hno ⊢
    exact ⟨hno.1, hle place node hnode hno.2⟩
  fun_induction t.walk seen links here todo with
  | case1 links here => rwa [walk]
  | case2 links here name rest hdir hstay ih =>
    rw [walk_stay hdir hstay]
    exact ih h
  | case3 links here rest hdir hname ih =>
    rw [walk_up hdir]
    exact ih h
  | case4 => cases h
  | case5 => cases h
  | case6 => cases h
  | case7 here name rest hdir hstay hup hlimit target hlink fewer ih =>
    rw [walk_link hdir hstay hup (hseen hlink hlimit) hlink]
    exact ih h
  | case8 links here name rest hdir hstay hup hlimit node hlink hnode ih =>
    rw [walk_down hdir hstay hup (hseen hnode hlimit) hnode hlink]
    exact ih h
  | case9 => cases h

/-- A path that starts at the root is walked from there. -/
theorem trace_of_isAbsolute {path : Bytes} (h : isAbsolute path = true) (hnul : 0 ∉ path)
    (cwd : Place) : t.trace seen cwd path = t.walk seen maxLinks [] (names path) := by
  have hne : path.isEmpty = false := by
    cases path with
    | nil => cases h
    | cons b rest => rfl
  rw [trace, if_neg (by simpa using hnul), hne, if_neg Bool.false_ne_true, if_pos h]

theorem settled_canonical {path : Bytes} (h : t.canonical [] path = .ok p) : t.Settled p := by
  rw [canonical, trace] at h
  split at h
  · cases h
  · split at h
    · cases h
    · rw [ite_self] at h
      exact settled_walk .nil (fun name => no_slash_of_mem_names) h

/-- The names of a settled place lead down to it, if all on the way there is seen. -/
theorem walk_append {q : Place} {links : Nat} {rest : List Bytes} (here : Place)
    (h : t.Settled (here ++ q)) (hseen : ∀ above, above <+: here ++ q → seen above = true) :
    t.walk seen links here (q ++ rest) = t.walk seen links (here ++ q) rest := by
  induction q generalizing here with
  | nil => rw [List.nil_append, List.append_nil]
  | cons name q ih =>
    have hdir : t.at? here = some .directory := h.direct.above (List.cons_ne_nil name q)
    have hname : IsName name := h.direct.named name (by simp)
    rw [List.append_cons] at h hseen ⊢
    obtain ⟨node, hnode, hlink⟩ := h.of_append.there
    have hlimit : ¬ (maxName < name.length ∨ seen (here ++ [name]) = false) := by
      rw [not_or, Nat.not_lt, Bool.not_eq_false]
      exact ⟨hname.short, hseen _ (List.prefix_append _ q)⟩
    rw [← ih _ h hseen, List.cons_append,
      walk_down hdir (not_or.2 ⟨hname.ne_nil, hname.ne_dot⟩) hname.ne_dotDot hlimit hnode hlink]

theorem walk_stays {links : Nat} {staying rest : List Bytes} (h : t.at? here = some .directory)
    (hstaying : ∀ name ∈ staying, name = [] ∨ name = dot) :
    t.walk seen links here (staying ++ rest) = t.walk seen links here rest := by
  induction staying with
  | nil => rfl
  | cons name staying ih =>
    rw [List.forall_mem_cons] at hstaying
    rw [List.cons_append, walk_stay h hstaying.1, ih hstaying.2]

/-- The path of a settled place leads to it. -/
theorem trace_path (h : t.Settled p) (hnul : 0 ∉ Place.path p)
    (hseen : ∀ above, above <+: p → seen above = true) :
    t.trace seen [] (Place.path p) = .ok p := by
  rw [trace_of_isAbsolute (Place.isAbsolute_path p) hnul]
  by_cases hp : p = []
  · subst hp
    show t.walk seen maxLinks [] ([[], []] ++ []) = _
    rw [walk_stays (at?_nil t) (by simp), walk]
  · rw [names_path hp fun name hname => (h.direct.named name hname).no_slash,
      walk_stay (at?_nil t) (.inl rfl), ← List.append_nil p]
    rw [walk_append [] (by simpa using h) (by simpa using hseen), walk, List.nil_append,
      List.append_nil]

theorem follow_path (h : t.Settled p) (hnul : 0 ∉ Place.path p) :
    t.follow [] (Place.path p) = .ok p :=
  trace_path h hnul fun _ _ => rfl

theorem canonical_path (h : t.Settled p) (hpath : Admissible (Place.path p)) :
    t.canonical [] (Place.path p) = .ok p :=
  trace_path h hpath.no_nul fun _ habove => inReach_of_prefix habove hpath.short

/-- Only a directory can be gone through. -/
theorem directory_of_walk {links : Nat} {name : Bytes} {rest : List Bytes}
    (h : t.walk seen links here (name :: rest) = .ok p) : t.at? here = some .directory := by
  rw [walk] at h
  split at h
  · assumption
  · cases h

/-! ## Looking up -/

/-- The path is short enough to be looked up, and leads to this place, where this node is. -/
@[mk_iff]
structure Leads (t : Tree) (cwd : Place) (path : Bytes) (p : Place) (node : Node) : Prop where
  short : path.length ≤ maxPath
  follow : t.follow cwd path = .ok p
  there : t.at? p = some node

section LookUp

variable {cwd : Place} {path content : Bytes} {node : Node}

theorem no_nul_of_trace (h : t.trace seen cwd path = .ok p) : 0 ∉ path := by
  intro hnul
  rw [trace, if_pos (by simpa using hnul)] at h
  cases h

theorem trace_mono {seen' : Place → Bool}
    (hle : ∀ q node, t.at? q = some node → seen q = true → seen' q = true)
    (h : t.trace seen cwd path = .ok p) : t.trace seen' cwd path = .ok p := by
  rw [trace] at h ⊢
  split at h
  · cases h
  · split at h
    · cases h
    · next hnul hne =>
      rw [if_neg hnul, if_neg hne]
      exact walk_mono hle h

/-- A program that replaces the links itself comes to where the file system does, if anywhere. -/
theorem follow_of_canonical (h : t.canonical cwd path = .ok p) : t.follow cwd path = .ok p :=
  trace_mono (fun _ _ _ _ => rfl) h

/-- It does come there in a tree without places that are out of reach. -/
theorem canonical_of_follow (hreach : ∀ q node, t.at? q = some node → q.inReach = true)
    (h : t.follow cwd path = .ok p) : t.canonical cwd path = .ok p :=
  trace_mono (fun q node hq _ => hreach q node hq) h

theorem lookUp_eq_ok_iff : t.lookUp cwd path = .ok node ↔ ∃ p, t.Leads cwd path p node := by
  rw [lookUp]
  split
  · next hlong =>
    have hlong : maxPath < path.length := by
      rw [Bool.and_eq_true, decide_eq_true_eq] at hlong
      exact hlong.2
    refine iff_of_false (by simp) ?_
    rintro ⟨p, h⟩
    exact Nat.not_lt.2 h.short hlong
  · next hshort =>
    cases hp : t.follow cwd path with
    | error e => simp [leads_iff, hp]
    | ok p =>
      have hlength : path.length ≤ maxPath := by
        simpa [no_nul_of_trace hp] using hshort
      cases hnode : t.at? p <;> simp [leads_iff, hlength, hp, hnode]

theorem isDirectory_iff : t.isDirectory cwd path = true ↔ ∃ p, t.Leads cwd path p .directory := by
  rw [← lookUp_eq_ok_iff, isDirectory]
  split <;> simp_all

theorem isFile_iff :
    t.isFile cwd path = true ↔ ∃ p content, t.Leads cwd path p (.file content) := by
  rw [exists_comm]
  simp only [← lookUp_eq_ok_iff, isFile]
  split <;> simp_all

theorem read_eq_ok_iff :
    t.read cwd path = .ok content ↔ ∃ p, t.Leads cwd path p (.file content) := by
  rw [← lookUp_eq_ok_iff, read]
  split <;> simp_all

/-- A path leads to one place and one node. -/
theorem Leads.unique {q : Place} {node' : Node} (h : t.Leads cwd path p node)
    (h' : t.Leads cwd path q node') : p = q ∧ node = node' := by
  obtain rfl : p = q := Except.ok.inj (h.follow.symm.trans h'.follow)
  exact ⟨rfl, Option.some.inj (h.there.symm.trans h'.there)⟩

/-- The path of a settled place leads to what is there, if it can be looked up. -/
theorem Settled.leads (h : t.Settled p) (hpath : Admissible (Place.path p))
    (hnode : t.at? p = some node) : t.Leads [] (Place.path p) p node :=
  ⟨hpath.short, follow_path h hpath.no_nul, hnode⟩

theorem Leads.admissible (h : t.Leads cwd path p node) : Admissible path :=
  ⟨no_nul_of_trace h.follow, h.short⟩

end LookUp

/-! ## What is in the files -/

/-- The trees differ at most in what their files hold. -/
def Like (t t' : Tree) : Prop :=
  ∀ p, t.at? p = t'.at? p ∨
    ∃ content content', t.at? p = some (.file content) ∧ t'.at? p = some (.file content')

section Like

variable {t' : Tree}

theorem at?_put {node : Node} (hp : p ≠ []) (q : Place) :
    (t.put p node).at? q = if q = p then some node else t.at? q := by
  by_cases hq : q = []
  · subst hq
    rw [if_neg hp.symm]
    rfl
  · have hempty : q.isEmpty = false := by simpa using hq
    have hrest : (t.nodes.filter fun n => n.1 != p).find? (fun n => n.1 == q) =
        if q = p then none else t.nodes.find? fun n => n.1 == q := by
      rw [List.find?_filter]
      split
      · next heq => exact List.find?_eq_none.2 (by simp [heq])
      · next hne =>
        congr 1
        funext n
        by_cases hn : n.1 = q <;> simp [hn, hne]
    rw [at?, at?, hempty, if_neg Bool.false_ne_true, if_neg Bool.false_ne_true, put,
      List.find?_append, hrest]
    by_cases heq : q = p
    · simp [heq]
    · simp [heq, Ne.symm heq]

/-- A file that is written over leaves a tree like the one before. -/
theorem Like.put {content : Bytes} (h : t.at? p = some (.file content)) (content' : Bytes) :
    t.Like (t.put p (.file content')) := by
  have hp : p ≠ [] := by
    rintro rfl
    simp at h
  intro q
  rw [at?_put hp]
  split
  · next hq => exact .inr ⟨content, content', hq ▸ h, rfl⟩
  · exact .inl rfl

/-- Anything else than a file is there in both trees, or in neither. -/
theorem Like.at?_eq_iff (h : t.Like t') {found : Option Node}
    (hfound : ∀ content, found ≠ some (.file content)) : t.at? p = found ↔ t'.at? p = found := by
  obtain heq | ⟨content, content', hfile, hfile'⟩ := h p
  · rw [heq]
  · rw [hfile, hfile']
    exact iff_of_false (hfound content).symm (hfound content').symm

theorem Like.directory_iff (h : t.Like t') :
    t.at? p = some .directory ↔ t'.at? p = some .directory :=
  h.at?_eq_iff (by simp)

theorem Like.file_iff (h : t.Like t') :
    (∃ content, t.at? p = some (.file content)) ↔ ∃ content, t'.at? p = some (.file content) := by
  obtain heq | ⟨content, content', hfile, hfile'⟩ := h p
  · rw [heq]
  · simp [hfile, hfile']

/-- **A walk does not look into files.** -/
theorem Like.walk_eq (h : t.Like t') (seen : Place → Bool) (links : Nat) (here : Place)
    (todo : List Bytes) : t.walk seen links here todo = t'.walk seen links here todo := by
  fun_induction t.walk seen links here todo with
  | case1 links here => rw [walk]
  | case2 links here name rest hdir hstay ih =>
    rw [walk_stay (h.directory_iff.1 hdir) hstay, ih]
  | case3 links here rest hdir hname ih =>
    rw [walk_up (h.directory_iff.1 hdir), ih]
  | case4 links here name rest hdir hstay hup hlimit =>
    rw [walk, h.directory_iff.1 hdir]
    simp only [hstay, hup, hlimit, if_false, if_true]
  | case5 links here name rest hdir hstay hup hlimit hnone =>
    have hnone' := (h.at?_eq_iff (by simp)).1 hnone
    rw [walk, h.directory_iff.1 hdir]
    simp only [hstay, hup, hlimit, if_false, hnone']
  | case6 here name rest hdir hstay hup hlimit target hlink =>
    have hlink' := (h.at?_eq_iff (by simp)).1 hlink
    rw [walk, h.directory_iff.1 hdir]
    simp only [hstay, hup, hlimit, if_false, hlink']
  | case7 here name rest hdir hstay hup hlimit target hlink fewer ih =>
    have hlink' := (h.at?_eq_iff (by simp)).1 hlink
    rw [walk_link (h.directory_iff.1 hdir) hstay hup hlimit hlink']
    exact ih
  | case8 links here name rest hdir hstay hup hlimit node hlink hnode ih =>
    obtain ⟨node', hnode', hlink'⟩ :
        ∃ node', t'.at? (here ++ [name]) = some node' ∧ ∀ target, node' ≠ .link target := by
      obtain heq | ⟨content, content', -, hfile⟩ := h (here ++ [name])
      · exact ⟨node, heq ▸ hnode, hlink⟩
      · exact ⟨_, hfile, by simp⟩
    rw [walk_down (h.directory_iff.1 hdir) hstay hup hlimit hnode' hlink', ih]
  | case9 links here name rest hdir =>
    have hdir' : t'.at? here ≠ some .directory := fun hdir' => hdir (h.directory_iff.2 hdir')
    rw [walk]
    split
    · contradiction
    · rfl

theorem Like.trace_eq (h : t.Like t') (seen : Place → Bool) (cwd : Place) (path : Bytes) :
    t.trace seen cwd path = t'.trace seen cwd path := by
  simp only [trace, h.walk_eq]

theorem Like.isDirectory_eq (h : t.Like t') (cwd : Place) (path : Bytes) :
    t.isDirectory cwd path = t'.isDirectory cwd path := by
  rw [Bool.eq_iff_iff]
  simp only [isDirectory_iff, leads_iff, follow, h.trace_eq, h.directory_iff]

theorem Like.isFile_eq (h : t.Like t') (cwd : Place) (path : Bytes) :
    t.isFile cwd path = t'.isFile cwd path := by
  rw [Bool.eq_iff_iff]
  simp only [isFile_iff, leads_iff, exists_and_left, follow, h.trace_eq, h.file_iff]

end Like

end Tree
end EdgeCache.Files
