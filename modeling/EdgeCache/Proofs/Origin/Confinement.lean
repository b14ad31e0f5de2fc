import EdgeCache.Proofs.Origin.Answers

/-!
# What a site serves

A site looks a request path up below its root, and serves where that leads to only when it is a
regular file below the root.  Two things follow.  Nothing else is served: the place is reached from
the root by names alone (`Site.confined`), and a file that is not at this place has no influence on
the answer (`Site.responder_eq`).  And what is plainly there is served: the index file of a
directory (`Site.resolve_index`), and a file that names lead to from the root, however many slashes
the request starts with (`Site.resolve_names`).

A path that is looked up as a whole is limited in length (`Files.maxPath`).  A directory whose path
is longer has no index file, and a file whose path is longer is not served, nor is one that is
reached by way of a node whose path is longer.
-/

set_option autoImplicit false

namespace EdgeCache

open Files

namespace Site

variable {s : Site} {t : Tree} {cwd root place : Place} {path content : Bytes}

section Like

variable {t' : Tree}

/-- **What other files hold makes no difference.** -/
theorem responder_eq (h : t.Like t') (s : Site) (cwd : Place) (r : Request)
    (hplace : ∀ place, s.resolve t cwd r.uri.path = .file place → t.at? place = t'.at? place) :
    s.responder t cwd r = s.responder t' cwd r := by
  simp only [responder, ← resolve_eq h s cwd r.uri.path]
  cases hresolve : s.resolve t cwd r.uri.path with
  | nothing line => rfl
  | file place =>
    obtain ⟨content, hcontains, hread⟩ := confined hresolve
    obtain ⟨content', hcontains', hread'⟩ := confined (resolve_eq h s cwd r.uri.path ▸ hresolve)
    have hsame := hplace place hresolve
    rw [hcontains.file, hcontains'.file] at hsame
    obtain rfl : content = content' := by simpa using hsame
    simp only [serve, hread, hread']

end Like

/-! ## What is there is served -/

/-- A client that accepts everything is given these bytes, with the status of success. -/
def Serves (s : Site) (t : Tree) (cwd : Place) (r : Request) (content : Bytes) : Prop :=
  ∀ c : Client, c.Receptive → ∃ head chunks,
    (s.responder t cwd r).Gives c head chunks (.ok .ok) ∧ head.status = .ok ∧
      chunks.flatten = content

/-- A client that accepts everything is told that nothing is found. -/
def Refuses (s : Site) (t : Tree) (cwd : Place) (r : Request) : Prop :=
  ∀ c : Client, c.Receptive → ∃ head chunks,
    (s.responder t cwd r).Gives c head chunks (.ok .notFound) ∧ head.status = .notFound

section Answers

variable {r : Request}

theorem asking_get (hr : r.method = .get) : asking r false = r := by
  rw [asking, if_neg Bool.false_ne_true, ← hr]

theorem serves_of_resolve (hr : r.method = .get) (h : s.resolve t cwd r.uri.path = .file place)
    (hfile : t.at? place = some (.file content)) : s.Serves t cwd r content := by
  intro c hc
  rw [← asking_get hr, responder_asking, h]
  exact ⟨_, _, gives_serve hc (read_of_resolve h hfile) false, rfl, flatten_pieces content⟩

theorem refuses_of_resolve (hr : r.method = .get)
    (h : ∀ place, s.resolve t cwd r.uri.path ≠ .file place) : s.Refuses t cwd r := by
  intro c hc
  rw [← asking_get hr, responder_asking]
  have hanswer := Script.gives_answerPlain hc .notFound false (.ok .notFound)
  rcases hresolve : s.resolve t cwd r.uri.path with place | (_ | line)
  · exact absurd hresolve (h place)
  · exact ⟨_, _, hanswer, rfl⟩
  · exact ⟨_, _, hanswer.emit _, rfl⟩

/-- An answer with status 200 carries the file that the path resolves to. -/
theorem confined_of_gives (hr : r.method = .get) {c : Client} (hc : c.Receptive) {head : Head}
    {chunks : List Bytes} {result : Except OriginError Status}
    (h : (s.responder t cwd r).Gives c head chunks result) (hstatus : head.status = .ok) :
    ∃ place, s.resolve t cwd r.uri.path = .file place ∧
      s.Contains t cwd place chunks.flatten := by
  by_cases hresolve : ∃ place, s.resolve t cwd r.uri.path = .file place
  · obtain ⟨place, hplace⟩ := hresolve
    obtain ⟨content, hcontains, -⟩ := confined hplace
    obtain ⟨_, _, hgives, -, hcontent⟩ := serves_of_resolve hr hplace hcontains.file c hc
    obtain ⟨-, rfl, -⟩ := h.unique hgives
    exact ⟨place, hplace, hcontent ▸ hcontains⟩
  · obtain ⟨_, _, hgives, hnotFound⟩ := refuses_of_resolve hr (not_exists.1 hresolve) c hc
    obtain ⟨rfl, -, -⟩ := h.unique hgives
    rw [hstatus] at hnotFound
    cases hnotFound

theorem Refuses.not_serves (h : s.Refuses t cwd r) : ¬ s.Serves t cwd r content := by
  intro hserves
  obtain ⟨_, _, hgives, hstatus, -⟩ := hserves recorder recorder_receptive
  obtain ⟨_, _, hgives', hstatus'⟩ := h recorder recorder_receptive
  obtain ⟨rfl, -, -⟩ := hgives.unique hgives'
  rw [hstatus] at hstatus'
  cases hstatus'

/-- **A site serves what plainly lies below its root, and nothing else.**

* To a client that accepts everything, an answer with status 200 to a `GET` request carries a
  regular file, whole.  The file is reached from the root of the tree through directories alone, and
  the root of the site is one of these.
* What all other files hold has no influence on the answer, whatever the request and the client.
* A path that leads to a directory is answered with the first index entry that is a file, if that
  lies below the root.
* A path of names that leads down from the root to a file is answered with it, however many slashes
  it starts with.

The last two are limited to paths that can be looked up.  A directory that a longer path leads to,
and a file whose own path is longer, are answered as if nothing were there.  So is an index file
that the program does not come to when it replaces the links itself, which takes a node on the way
whose own path is too long (`Tree.canonical_of_follow`). -/
theorem confined_and_complete (s : Site) (t : Tree) (cwd : Place) (r : Request) :
    (r.method = .get → ∀ (c : Client) head chunks result, c.Receptive →
      (s.responder t cwd r).Gives c head chunks result → head.status = .ok →
      ∃ place, s.resolve t cwd r.uri.path = .file place ∧
        s.Contains t cwd place chunks.flatten) ∧
    (∀ t', t.Like t' →
      (∀ place, s.resolve t cwd r.uri.path = .file place → t.at? place = t'.at? place) →
      s.responder t cwd r = s.responder t' cwd r) ∧
    (r.method = .get → ∀ root dir, t.canonical cwd s.root = .ok root →
      t.follow [] (sought root r.uri.path) = .ok dir → t.at? dir = some .directory →
      if (sought root r.uri.path).length ≤ maxPath then
        ∀ before entry after place content, s.indexFiles = before ++ entry :: after →
          (∀ e ∈ before, ¬ ∃ p content,
            t.Leads [] (join (sought root r.uri.path) e) p (.file content)) →
          t.Leads [] (join (sought root r.uri.path) entry) place (.file content) → root <+: place →
          if t.canonical [] (join (sought root r.uri.path) entry) = .ok place ∧
              Admissible (Place.path place) then s.Serves t cwd r content
          else s.Refuses t cwd r
      else s.Refuses t cwd r) ∧
    (r.method = .get → ∀ root below content k, t.canonical cwd s.root = .ok root → below ≠ [] →
      t.Direct (root ++ below) → t.at? (root ++ below) = some (.file content) →
      r.uri.path = List.replicate k 0x2F ++ Bytes.joinWith 0x2F below →
      if Admissible (Place.path (root ++ below)) then s.Serves t cwd r content
      else s.Refuses t cwd r) := by
  refine ⟨fun hr c head chunks result hc hgives hstatus =>
    confined_of_gives hr hc hgives hstatus, fun t' h hplace => responder_eq h s cwd r hplace,
    ?index, ?names⟩
  case index =>
    intro hr root dir hroot hdir hthere
    split
    · next hshort =>
      intro before entry after place content hentries hbefore hentry hbelow
      have hresolve := fun p =>
        resolve_index (p := p) hroot ⟨hshort, hdir, hthere⟩ hentries hbefore hentry
      split
      · next hfound =>
        exact serves_of_resolve hr ((hresolve place).2 ⟨rfl, hbelow, hfound⟩) hentry.there
      · next hlost => exact refuses_of_resolve hr fun p h => hlost ((hresolve p).1 h).2.2
    · next hlong => exact refuses_of_resolve hr (resolve_of_long hroot hdir hthere (by omega))
  case names =>
    intro hr root below content k hroot hne hdirect hfile hpath
    have hresolve := fun p => resolve_names (p := p) hroot hne hdirect hfile hpath
    split
    · next hadmissible => exact serves_of_resolve hr ((hresolve _).2 ⟨rfl, hadmissible⟩) hfile
    · next hadmissible => exact refuses_of_resolve hr fun p h => hadmissible ((hresolve p).1 h).2

theorem confined_and_complete_notes :
    notes.Serves notesTree [] (requestFor .get (bytes "//a/note")) (bytes "read me") ∧
    notes.Serves notesTree [] (requestFor .get (bytes "/")) (bytes "home") ∧
    notes.responder notesTree [] (requestFor .get (bytes "//a/note")) =
      notes.responder (notesTree.put [bytes "site2", bytes "index.html"] (.file (bytes "new"))) []
        (requestFor .get (bytes "//a/note")) ∧
    ∃ place, notes.Contains notesTree [] place (bytes "read me") := by
  obtain ⟨hconfined, hblind, -, hnames⟩ :=
    confined_and_complete notes notesTree [] (requestFor .get (bytes "//a/note"))
  obtain ⟨-, -, hindex, -⟩ := confined_and_complete notes notesTree [] (requestFor .get (bytes "/"))
  have hnote :
      notes.Serves notesTree [] (requestFor .get (bytes "//a/note")) (bytes "read me") := by
    have h := hnames rfl [bytes "site"] [bytes "a", bytes "note"] (bytes "read me") 2
      canonical_notes (by simp) direct_note at?_note (by decide)
    rwa [if_pos (by decide)] at h
  have hsettled : notesTree.Settled [bytes "site"] := Tree.settled_canonical canonical_notes
  refine ⟨hnote, ?_, ?_, ?_⟩
  · have hroot : notesTree.follow [] (sought [bytes "site"] (bytes "/")) = .ok [bytes "site"] := by
      rw [Tree.follow, trace_sought hsettled (by decide) fun _ _ => rfl]
      show notesTree.walk _ maxLinks [bytes "site"] ([[]] ++ []) = _
      rw [Tree.walk_stays (by decide) (by simp), Tree.walk]
    have h := hindex rfl [bytes "site"] [bytes "site"] canonical_notes hroot (by decide)
    rw [if_pos (by decide)] at h
    have hentry : join (sought [bytes "site"] (bytes "/")) (bytes "index.html") =
        Place.path [bytes "site", bytes "index.html"] := by decide
    have h := h [] (bytes "index.html") [] [bytes "site", bytes "index.html"] (bytes "home") rfl
      (by simp) (hentry ▸ leads_index) (by simp)
    rwa [if_pos ⟨hentry ▸ Tree.canonical_path settled_index (by decide), by decide⟩] at h
  · have hprivate : notesTree.at? [bytes "site2", bytes "index.html"] =
        some (.file (bytes "private")) := by decide
    refine hblind _ (Tree.Like.put hprivate _) fun place hplace => ?_
    rw [resolve_note.1 hplace]
    decide
  · obtain ⟨head, chunks, hgives, hstatus, hcontent⟩ := hnote recorder recorder_receptive
    obtain ⟨place, -, hcontains⟩ :=
      hconfined rfl recorder head chunks _ recorder_receptive hgives hstatus
    exact ⟨place, hcontent ▸ hcontains⟩

/-! ## Paths that are too long -/

/-- So many dots, each after a slash. -/
def dots (n : Nat) : Bytes := (List.replicate n dot).flatMap fun name => 0x2F :: name

theorem length_dots (n : Nat) : (dots n).length = 2 * n := by
  simp [dots, dot, List.length_flatMap, Nat.mul_comm]

theorem cons_dropWhile_dots (n : Nat) :
    0x2F :: (dots (n + 1)).dropWhile (· == 0x2F) = dots (n + 1) := rfl

theorem sought_dots (hroot : ∀ name ∈ root, IsName name) (n : Nat) :
    sought root (dots (n + 1)) = (root.flatMap fun name => 0x2F :: name) ++ dots (n + 1) := by
  rw [sought_eq hroot, cons_dropWhile_dots]

/-- Dots lead to the root of the site. -/
theorem canonical_sought_dots (h : t.Settled root) (hroot : t.at? root = some .directory)
    (hpath : Admissible (Place.path root)) (n : Nat) :
    t.canonical [] (sought root (dots (n + 1))) = .ok root := by
  have hnames : names ((dots (n + 1)).dropWhile (· == 0x2F)) = List.replicate (n + 1) dot := by
    have hdots : names (dots (n + 1)) = [] :: List.replicate (n + 1) dot :=
      names_flatMap (by simp [dot])
    rw [← cons_dropWhile_dots, names, Bytes.splitOn, if_pos rfl] at hdots
    exact (List.cons.inj hdots).2
  have hsought : 0 ∉ sought root (dots (n + 1)) := by
    rw [sought_dots h.direct.named, List.mem_append, not_or]
    refine ⟨fun hnul => ?_, by simp [dots, dot]⟩
    have hne : root ≠ [] := by
      rintro rfl
      simp at hnul
    exact hpath.no_nul (Place.path_of_ne_nil hne ▸ hnul)
  rw [Tree.canonical, trace_sought h hsought fun _ habove => inReach_of_prefix habove hpath.short,
    hnames, ← List.append_nil (List.replicate _ _), Tree.walk_stays hroot (by simp), Tree.walk]

/-- A directory is not always answered with its index file.  When a path leads there through so many
dots that it is too long to be looked up, the answer is that nothing is found. -/
theorem index_behind_dots :
    notesTree.canonical [] notes.root = .ok [bytes "site"] ∧
    notesTree.canonical [] (sought [bytes "site"] (dots 2100)) = .ok [bytes "site"] ∧
    notesTree.at? [bytes "site"] = some .directory ∧
    notes.indexFiles = [bytes "index.html"] ∧
    notesTree.Leads [] (join (Place.path [bytes "site"]) (bytes "index.html"))
      [bytes "site", bytes "index.html"] (.file (bytes "home")) ∧
    ¬ notes.Serves notesTree [] (requestFor .get (dots 2100)) (bytes "home") := by
  have hthere : notesTree.at? [bytes "site"] = some .directory := by decide
  have hsettled : notesTree.Settled [bytes "site"] := Tree.settled_canonical canonical_notes
  have hdots : notesTree.canonical [] (sought [bytes "site"] (dots 2100)) = .ok [bytes "site"] :=
    canonical_sought_dots hsettled hthere (by decide) 2099
  have hlong : maxPath < (sought [bytes "site"] (dots 2100)).length := by
    rw [sought_dots hsettled.direct.named 2099, List.length_append, length_dots, maxPath]
    omega
  have hrefuses : notes.Refuses notesTree [] (requestFor .get (dots 2100)) :=
    refuses_of_resolve rfl
      (resolve_of_long canonical_notes (Tree.follow_of_canonical hdots) hthere hlong)
  have hentry : join (Place.path [bytes "site"]) (bytes "index.html") =
      Place.path [bytes "site", bytes "index.html"] := by decide
  exact ⟨canonical_notes, hdots, hthere, rfl, hentry ▸ leads_index, hrefuses.not_serves⟩

end Answers

end Site
end EdgeCache
