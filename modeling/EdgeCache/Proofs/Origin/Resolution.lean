import EdgeCache.Origin.Site
import EdgeCache.Proofs.Files.Walks

/-!
# What request paths lead to

A site looks a request path up below its root.  What it resolves the path to is a regular file below
the root, reached by names alone (`Site.confined`), and that depends on no file's content
(`Site.resolve_eq`).  Two kinds of paths are known to be resolved: one that leads to a directory
with an index file (`Site.resolve_index`), and one of names that lead down from the root to a file,
however many slashes it starts with (`Site.resolve_names`).

A path that is looked up as a whole is limited in length (`Files.maxPath`).  A directory whose path
is longer has no index file (`Site.resolve_of_long`), and a file whose own path is longer is not
found.  Nor is one that the path leads to by way of a node whose own path is longer.
-/

set_option autoImplicit false

namespace EdgeCache

open Files

namespace Site

variable {s : Site} {t : Tree} {cwd root place : Place} {path content : Bytes}

/-! ## Resolving a path -/

/-- The path that is looked up for a request path. -/
def sought (root : Place) (path : Bytes) : Bytes :=
  join (Place.path root) (path.dropWhile (· == 0x2F))

theorem isAbsolute_dropWhile (path : Bytes) : isAbsolute (path.dropWhile (· == 0x2F)) = false := by
  induction path with
  | nil => rfl
  | cons b rest ih =>
    rw [List.dropWhile_cons]
    split
    · exact ih
    · next hb => simpa [isAbsolute] using hb

theorem resolve_of_root (hroot : t.canonical cwd s.root = .ok root) :
    s.resolve t cwd path =
      match t.canonical [] (s.withIndex t (sought root path)) with
      | .error _ => .nothing none
      | .ok place =>
        if !root.isPrefixOf place then .nothing (some (traversal path place))
        else if t.isFile [] (Place.path place) then .file place
        else .nothing none := by
  rw [resolve, hroot]
  rfl

/-- Only a regular file below the root is served. -/
theorem resolve_eq_file_iff :
    s.resolve t cwd path = .file place ↔
      ∃ root, t.canonical cwd s.root = .ok root ∧
        t.canonical [] (s.withIndex t (sought root path)) = .ok place ∧
        root <+: place ∧ t.isFile [] (Place.path place) = true := by
  constructor
  · intro h
    cases hroot : t.canonical cwd s.root with
    | error e => simp [resolve, hroot] at h
    | ok root =>
      rw [resolve_of_root hroot] at h
      split at h
      · cases h
      · next q hq =>
        split at h
        · cases h
        · next hbelow =>
          split at h
          · next hfile =>
            obtain rfl : q = place := by simpa using h
            exact ⟨root, rfl, hq, by simpa using hbelow, hfile⟩
          · cases h
  · rintro ⟨root, hroot, hplace, hbelow, hfile⟩
    rw [← List.isPrefixOf_iff_prefix] at hbelow
    rw [resolve_of_root hroot, hplace]
    simp [hbelow, hfile]

theorem sought_eq (hroot : ∀ name ∈ root, IsName name) (path : Bytes) :
    sought root path =
      (root.flatMap fun name => 0x2F :: name) ++ 0x2F :: path.dropWhile (· == 0x2F) :=
  join_path hroot (isAbsolute_dropWhile path)

/-- Below a settled root a path is walked from there, if all on the way to the root is seen. -/
theorem trace_sought {seen : Place → Bool} (h : t.Settled root) (hnul : 0 ∉ sought root path)
    (hseen : ∀ above, above <+: root → seen above = true) :
    t.trace seen [] (sought root path) =
      t.walk seen maxLinks root (names (path.dropWhile (· == 0x2F))) := by
  have hsought := sought_eq h.direct.named path
  have habsolute : isAbsolute (sought root path) = true := by
    rw [hsought]
    cases root <;> rfl
  have hnames : names (sought root path) =
      [] :: (root ++ names (path.dropWhile (· == 0x2F))) := by
    rw [hsought, names_append,
      names_flatMap fun name hname => (h.direct.named name hname).no_slash, List.cons_append]
  rw [Tree.trace_of_isAbsolute habsolute hnul, hnames,
    Tree.walk_stay (Tree.at?_nil t) (.inl rfl), Tree.walk_append [] h hseen, List.nil_append]

/-- What is found below a settled root, whatever it is, shows that the root is a directory. -/
theorem directory_of_follow_sought {p : Place} (h : t.Settled root)
    (hp : t.follow [] (sought root path) = .ok p) : t.at? root = some .directory := by
  rw [Tree.follow, trace_sought h (Tree.no_nul_of_trace hp) fun _ _ => rfl] at hp
  cases hnames : names (path.dropWhile (· == 0x2F)) with
  | nil => exact absurd hnames (Bytes.splitOn_ne_nil _ _)
  | cons name rest =>
    rw [hnames] at hp
    exact Tree.directory_of_walk hp

/-! ## Index files -/

theorem withIndex_of_isDirectory {before after : List Bytes} {entry : Bytes}
    (hdir : t.isDirectory [] path = true) (hentries : s.indexFiles = before ++ entry :: after)
    (hbefore : ∀ e ∈ before, t.isFile [] (join path e) = false)
    (hentry : t.isFile [] (join path entry) = true) : s.withIndex t path = join path entry := by
  have hmissing : (before.map (join path)).find? (t.isFile []) = none := by
    simpa using hbefore
  rw [withIndex, if_pos hdir, hentries, List.map_append, List.find?_append, hmissing, List.map_cons,
    List.find?_cons_of_pos hentry, Option.none_or, Option.getD_some]

theorem withIndex_of_not_isDirectory (hdir : t.isDirectory [] path = false) :
    s.withIndex t path = path := by
  rw [withIndex, hdir, if_neg Bool.false_ne_true]

/-- A path that has an index file leads somewhere itself. -/
theorem exists_follow_of_withIndex (h : t.canonical [] (s.withIndex t path) = .ok place) :
    ∃ p, t.follow [] path = .ok p := by
  cases hdir : t.isDirectory [] path with
  | true =>
    obtain ⟨p, hp⟩ := Tree.isDirectory_iff.1 hdir
    exact ⟨p, hp.follow⟩
  | false =>
    rw [withIndex_of_not_isDirectory hdir] at h
    exact ⟨place, Tree.follow_of_canonical h⟩

/-! ## Nothing else is resolved to -/

/-- At the place there is a regular file with this content, below the root of the site and reached
through directories alone. -/
structure Contains (s : Site) (t : Tree) (cwd place : Place) (content : Bytes) : Prop where
  below : ∃ root names, t.canonical cwd s.root = .ok root ∧ names ≠ [] ∧ place = root ++ names
  direct : t.Direct place
  file : t.at? place = some (.file content)

/-- **What a path resolves to lies below the root**, and can be read. -/
theorem confined (h : s.resolve t cwd path = .file place) :
    ∃ content, s.Contains t cwd place content ∧ t.read [] (Place.path place) = .ok content := by
  obtain ⟨root, hroot, hplace, ⟨below, rfl⟩, hfile⟩ := resolve_eq_file_iff.1 h
  have hsettled := Tree.settled_canonical hplace
  obtain ⟨q, content, hleads⟩ := Tree.isFile_iff.1 hfile
  obtain ⟨rfl⟩ : root ++ below = q :=
    Except.ok.inj ((Tree.follow_path hsettled hleads.admissible.no_nul).symm.trans hleads.follow)
  -- the root itself has been gone through, and so is no file
  have hne : below ≠ [] := by
    rintro rfl
    rw [List.append_nil] at hsettled hleads
    obtain ⟨p, hp⟩ := exists_follow_of_withIndex hplace
    have hdir := directory_of_follow_sought hsettled hp
    simp [hleads.there] at hdir
  exact ⟨content, ⟨⟨root, below, hroot, hne, rfl⟩, hsettled.direct, hleads.there⟩,
    Tree.read_eq_ok_iff.2 ⟨_, hleads⟩⟩

theorem read_of_resolve (h : s.resolve t cwd path = .file place)
    (hfile : t.at? place = some (.file content)) : t.read [] (Place.path place) = .ok content := by
  obtain ⟨content', hcontains, hread⟩ := confined h
  obtain rfl : content = content' := by simpa [hfile] using hcontains.file
  exact hread

/-- **A path is resolved alike** in trees that differ only in what their files hold. -/
theorem resolve_eq {t' : Tree} (h : t.Like t') (s : Site) (cwd : Place) (path : Bytes) :
    s.resolve t cwd path = s.resolve t' cwd path := by
  have hisFile : t.isFile [] = t'.isFile [] := funext (h.isFile_eq [])
  have hwithIndex : s.withIndex t = s.withIndex t' := by
    funext p
    rw [withIndex, withIndex, h.isDirectory_eq, hisFile]
  simp only [resolve, hwithIndex, hisFile, Tree.canonical, h.trace_eq]

/-! ## Paths that are resolved -/

/-- A path that leads to a file resolves to it if the file lies below the root, all on the way there
is in reach, and the file can be looked up by its own path.  It resolves to nothing else. -/
theorem resolve_of_follow (hroot : t.canonical cwd s.root = .ok root)
    (hfollow : t.follow [] (s.withIndex t (sought root path)) = .ok place)
    (hfile : t.at? place = some (.file content)) {p : Place} :
    s.resolve t cwd path = .file p ↔
      p = place ∧ root <+: place ∧
        t.canonical [] (s.withIndex t (sought root path)) = .ok place ∧
        Admissible (Place.path place) := by
  rw [resolve_eq_file_iff]
  constructor
  · rintro ⟨root', hroot', hp, hbelow, hisFile⟩
    obtain rfl : root = root' := Except.ok.inj (hroot.symm.trans hroot')
    obtain rfl : place = p := Except.ok.inj (hfollow.symm.trans (Tree.follow_of_canonical hp))
    obtain ⟨_, _, hleads⟩ := Tree.isFile_iff.1 hisFile
    exact ⟨rfl, hbelow, hp, hleads.admissible⟩
  · rintro ⟨rfl, hbelow, hplace, hadmissible⟩
    exact ⟨root, hroot, hplace, hbelow, Tree.isFile_iff.2
      ⟨_, content, (Tree.settled_canonical hplace).leads hadmissible hfile⟩⟩

/-- A directory resolves to its first index file, if this is in reach as well. -/
theorem resolve_index {dir p : Place} {before after : List Bytes} {entry : Bytes}
    (hroot : t.canonical cwd s.root = .ok root)
    (hdir : t.Leads [] (sought root path) dir .directory)
    (hentries : s.indexFiles = before ++ entry :: after)
    (hbefore : ∀ e ∈ before, ¬ ∃ p content,
      t.Leads [] (join (sought root path) e) p (.file content))
    (hentry : t.Leads [] (join (sought root path) entry) place (.file content)) :
    s.resolve t cwd path = .file p ↔
      p = place ∧ root <+: place ∧ t.canonical [] (join (sought root path) entry) = .ok place ∧
        Admissible (Place.path place) := by
  have hwithIndex : s.withIndex t (sought root path) = join (sought root path) entry :=
    withIndex_of_isDirectory (Tree.isDirectory_iff.2 ⟨dir, hdir⟩) hentries
      (fun e he => Bool.eq_false_iff.2 fun h => hbefore e he (Tree.isFile_iff.1 h))
      (Tree.isFile_iff.2 ⟨place, content, hentry⟩)
  rw [resolve_of_follow hroot (hwithIndex ▸ hentry.follow) hentry.there, hwithIndex]

/-- A directory whose path is too long has no index file. -/
theorem resolve_of_long {dir : Place} (hroot : t.canonical cwd s.root = .ok root)
    (hdir : t.follow [] (sought root path) = .ok dir) (hthere : t.at? dir = some .directory)
    (hlong : maxPath < (sought root path).length) (p : Place) :
    s.resolve t cwd path ≠ .file p := by
  intro h
  obtain ⟨root', hroot', hplace, -, -⟩ := resolve_eq_file_iff.1 h
  obtain rfl : root = root' := Except.ok.inj (hroot.symm.trans hroot')
  obtain ⟨content, hcontains, -⟩ := confined h
  have hdirectory : t.isDirectory [] (sought root path) = false := by
    refine Bool.eq_false_iff.2 fun h => ?_
    obtain ⟨_, hleads⟩ := Tree.isDirectory_iff.1 h
    exact Nat.not_lt.2 hleads.short hlong
  rw [withIndex_of_not_isDirectory hdirectory] at hplace
  obtain rfl : dir = p := Except.ok.inj (hdir.symm.trans (Tree.follow_of_canonical hplace))
  simpa [hthere] using hcontains.file

/-- However many slashes a request path starts with, names lead down from the root. -/
theorem sought_names (hroot : ∀ name ∈ root, IsName name) {below : Place} (hne : below ≠ [])
    (hbelow : ∀ name ∈ below, IsName name) (k : Nat) :
    sought root (List.replicate k 0x2F ++ Bytes.joinWith 0x2F below) =
      Place.path (root ++ below) := by
  -- the slashes end where the first name begins
  have hstripped : (List.replicate k 0x2F ++ Bytes.joinWith 0x2F below).dropWhile (· == 0x2F) =
      Bytes.joinWith 0x2F below := by
    rw [List.dropWhile_append_of_pos (by simp)]
    obtain ⟨name, rest, rfl⟩ := List.exists_cons_of_ne_nil hne
    have hname : IsName name := hbelow name List.mem_cons_self
    obtain ⟨b, bs, rfl⟩ := List.exists_cons_of_ne_nil hname.ne_nil
    have hb : b ≠ 0x2F := fun hb => hname.no_slash (by simp [hb])
    obtain ⟨more, hmore⟩ : ∃ more, Bytes.joinWith 0x2F ((b :: bs) :: rest) = b :: more := by
      cases rest with
      | nil => exact ⟨bs, rfl⟩
      | cons next rest => exact ⟨_, rfl⟩
    rw [hmore, List.dropWhile_cons_of_neg (by simpa using hb)]
  rw [sought_eq hroot, hstripped, cons_joinWith hne, ← List.flatMap_append,
    Place.path_of_ne_nil (by simp [hne])]

/-- A file that names lead down to is what they resolve to. -/
theorem resolve_names {below p : Place} {k : Nat} (hroot : t.canonical cwd s.root = .ok root)
    (hne : below ≠ []) (hdirect : t.Direct (root ++ below))
    (hfile : t.at? (root ++ below) = some (.file content))
    (hpath : path = List.replicate k 0x2F ++ Bytes.joinWith 0x2F below) :
    s.resolve t cwd path = .file p ↔
      p = root ++ below ∧ Admissible (Place.path (root ++ below)) := by
  have hsettled : t.Settled (root ++ below) := hdirect.settled hfile (by simp)
  have hsought : sought root path = Place.path (root ++ below) := by
    rw [hpath, sought_names (fun name hname => hdirect.named name (by simp [hname])) hne
      (fun name hname => hdirect.named name (by simp [hname]))]
  have hwithIndex : s.withIndex t (sought root path) = Place.path (root ++ below) := by
    rw [← hsought]
    refine withIndex_of_not_isDirectory (Bool.eq_false_iff.2 fun h => ?_)
    obtain ⟨_, hleads⟩ := Tree.isDirectory_iff.1 h
    rw [hsought] at hleads
    cases (hleads.unique (hsettled.leads hleads.admissible hfile)).2
  by_cases hnul : 0 ∈ Place.path (root ++ below)
  · refine iff_of_false (fun h => ?_) fun h => h.2.no_nul hnul
    obtain ⟨root', hroot', hplace, -⟩ := resolve_eq_file_iff.1 h
    obtain rfl : root = root' := Except.ok.inj (hroot.symm.trans hroot')
    exact Tree.no_nul_of_trace (hwithIndex ▸ hplace) hnul
  · rw [resolve_of_follow hroot (hwithIndex ▸ Tree.follow_path hsettled hnul) hfile, hwithIndex,
      and_iff_right (List.prefix_append root below),
      and_iff_right_of_imp (Tree.canonical_path hsettled)]

/-! ## A site with a note -/

/-- A site with a page and a note, beside a directory of which its name is the beginning. -/
def notes : Site := ⟨bytes "/site", [bytes "index.html"]⟩

@[inherit_doc notes]
def notesTree : Tree where
  nodes :=
    [([bytes "site"], .directory),
      ([bytes "site", bytes "index.html"], .file (bytes "home")),
      ([bytes "site", bytes "a"], .directory),
      ([bytes "site", bytes "a", bytes "note"], .file (bytes "read me")),
      ([bytes "site", bytes "out"], .link (bytes "../site2")),
      ([bytes "site2"], .directory),
      ([bytes "site2", bytes "index.html"], .file (bytes "private"))]

theorem direct_note : notesTree.Direct [bytes "site", bytes "a", bytes "note"] := by decide

theorem at?_note : notesTree.at? [bytes "site", bytes "a", bytes "note"] =
    some (.file (bytes "read me")) := by decide

theorem canonical_notes : notesTree.canonical [] notes.root = .ok [bytes "site"] := by
  have hsettled : notesTree.Settled [bytes "site"] :=
    (direct_note.settled at?_note (by simp)).of_append (p := [bytes "site"])
  exact Tree.canonical_path hsettled (by decide)

theorem at?_index : notesTree.at? [bytes "site", bytes "index.html"] =
    some (.file (bytes "home")) := by decide

theorem settled_index : notesTree.Settled [bytes "site", bytes "index.html"] := by
  have hdirect : notesTree.Direct [bytes "site", bytes "index.html"] := by decide
  exact hdirect.settled at?_index (by simp)

theorem leads_index : notesTree.Leads [] (Place.path [bytes "site", bytes "index.html"])
    [bytes "site", bytes "index.html"] (.file (bytes "home")) :=
  settled_index.leads (by decide) at?_index

theorem resolve_note {p : Place} :
    notes.resolve notesTree [] (bytes "//a/note") = .file p ↔
      p = [bytes "site", bytes "a", bytes "note"] := by
  have hslashes : bytes "//a/note" =
      List.replicate 2 0x2F ++ Bytes.joinWith 0x2F [bytes "a", bytes "note"] := by decide
  rw [resolve_names canonical_notes (List.cons_ne_nil _ _) direct_note at?_note hslashes]
  exact and_iff_left (by decide)

end Site
end EdgeCache
