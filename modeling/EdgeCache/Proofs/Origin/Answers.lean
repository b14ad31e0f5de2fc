import EdgeCache.Proofs.Origin.Recordings
import EdgeCache.Proofs.Origin.Resolution

/-!
# Answers with and without their body

What a site answers to a `HEAD` request is what it answers to a `GET` request, without the chunks:
the head is the same, and tells the length of the body either way.  Both scripts come from one that
takes the difference as a parameter, and `Headed` is what such a script has to satisfy.  It is shown
of the parts that answers are made of, plain-text answers and files, and so holds of the whole.

A file is written in pieces.  Put together they are the content again, and all but the last are full
(`Site.flatten_piecesOf`, `Site.length_of_mem_dropLast_piecesOf`).
-/

set_option autoImplicit false

namespace EdgeCache

/-- The head tells how long these chunks are together. -/
def Head.Announces (head : Head) (chunks : List Bytes) : Prop :=
  head.headers.values .contentLength = [Bytes.ofNat chunks.flatten.length]

/-- A script that leaves out its body on demand, and does everything else alike: to a client that
accepts everything it gives one head, which tells the length of the body, and ends with one
result. -/
def Script.Headed (script : (isHead : Bool) → Script (Except OriginError Status)) : Prop :=
  ∀ c : Client, c.Receptive → ∃ head body result,
    (∀ isHead, (script isHead).Gives c head (if isHead then [] else body) result) ∧
      head.Announces body

/-! ## Plain-text answers -/

namespace Script

variable {c : Client} {head : Head} {chunks : List Bytes}

theorem waitless_answerPlain (status : Status) (isHead : Bool)
    (result : Except OriginError Status) : (answerPlain status isHead result).Waitless := by
  refine (waitless_plain status isHead).bind fun failure => ?_
  cases failure <;> exact .done

theorem waitless_writeAll (result : Except OriginError Status) (chunks : List Bytes) :
    (writeAll result chunks).Waitless :=
  writeAll_induction .done (fun _ => .done) (fun _ _ hk => .write hk) chunks

/-- The head of a plain-text answer tells the length of its text. -/
theorem announces_plain (status : Status) (h : Headers) :
    (⟨status, Plain.describe status h⟩ : Head).Announces [Plain.body status] := by
  rw [Head.Announces, Plain.describe, Headers.values_insert, if_pos rfl, List.flatten_singleton]

theorem gives_answerPlain (hc : c.Receptive) (status : Status) (isHead : Bool)
    (result : Except OriginError Status) :
    (answerPlain status isHead result).Gives c ⟨status, Plain.describe status c.headers⟩
      (if isHead then [] else [Plain.body status]) result := by
  have hwaitless := waitless_answerPlain status isHead result
  cases isHead with
  | true => exact .of_play hwaitless hc (d := ⟨_, _, []⟩) rfl rfl
  | false => exact .of_play hwaitless hc (d := ⟨_, _, [(Plain.body status, none)]⟩) rfl rfl

theorem headed_answerPlain (status : Status) (result : Except OriginError Status) :
    Headed fun isHead => answerPlain status isHead result := fun c hc =>
  ⟨_, _, result, fun isHead => gives_answerPlain hc status isHead result,
    announces_plain status c.headers⟩

/-- Once the head is fixed, chunks that are accepted are delivered one after another. -/
theorem play_writeAll (result : Except OriginError Status) (chunks : List Bytes) {d : Delivery}
    (hd : d.head.isSome = true) :
    (writeAll result chunks).play (fun _ => none) d =
      some (result, { d with writes := d.writes ++ chunks.map (·, none) }) := by
  induction chunks generalizing d with
  | nil => simp [writeAll, play]
  | cons chunk rest ih =>
    have hwrite : d.write chunk none = { d with writes := d.writes ++ [(chunk, none)] } := by
      rw [Delivery.write, Delivery.commit_of_isSome hd]
    have hrest := ih (d := { d with writes := d.writes ++ [(chunk, none)] }) hd
    rw [writeAll, play, hwrite, List.map_cons]
    simpa only [List.append_assoc, List.singleton_append] using hrest

theorem Gives.emit {s : Script (Except OriginError Status)} {result : Except OriginError Status}
    (h : s.Gives c head chunks result) (event : Event) :
    (Script.emit event s).Gives c head chunks result := by
  obtain ⟨c', hfinishes, hreceived⟩ := h
  exact ⟨c', .next rfl hfinishes, hreceived⟩

theorem Gives.edit {s : Script (Except OriginError Status)} {result : Except OriginError Status}
    {f : Headers → Headers} (h : s.Gives (c.edit f) head chunks result) :
    (Script.edit f s).Gives c head chunks result := by
  obtain ⟨c', hfinishes, hreceived⟩ := h
  exact ⟨c', .next rfl hfinishes, hreceived⟩

theorem Headed.emit {script : Bool → Script (Except OriginError Status)} (h : Headed script)
    (event : Event) : Headed fun isHead => Script.emit event (script isHead) := by
  intro c hc
  obtain ⟨head, body, result, hgives, hannounces⟩ := h c hc
  exact ⟨head, body, result, fun isHead => (hgives isHead).emit event, hannounces⟩

end Script

/-! ## Pieces -/

namespace Site

open Files

section Pieces

variable {size fuel : Nat} {s : Bytes}

theorem flatten_piecesOf (hsize : 0 < size) (hfuel : s.length ≤ fuel) :
    (piecesOf size fuel s).flatten = s := by
  induction fuel generalizing s with
  | zero => rw [List.length_eq_zero_iff.1 (Nat.le_zero.1 hfuel)]; rfl
  | succ fuel ih =>
    rw [piecesOf]
    split
    · next hs => simpa using hs.symm
    · have hrest : (s.drop size).length ≤ fuel := by
        rw [List.length_drop]
        omega
      rw [List.flatten_cons, ih hrest, List.take_append_drop]

theorem length_of_mem_piecesOf (hsize : 0 < size) {piece : Bytes}
    (h : piece ∈ piecesOf size fuel s) : 1 ≤ piece.length ∧ piece.length ≤ size := by
  induction fuel generalizing s with
  | zero => exact absurd h List.not_mem_nil
  | succ fuel ih =>
    rw [piecesOf] at h
    split at h
    · exact absurd h List.not_mem_nil
    · next hs =>
      obtain rfl | hrest := List.mem_cons.1 h
      · have hpos : 0 < s.length := List.length_pos_iff.2 (by simpa using hs)
        rw [List.length_take]
        omega
      · exact ih hrest

theorem piecesOf_eq_nil (h : s = []) : piecesOf size fuel s = [] := by
  subst h
  cases fuel <;> rfl

theorem length_of_mem_dropLast_piecesOf {piece : Bytes}
    (h : piece ∈ (piecesOf size fuel s).dropLast) : piece.length = size := by
  induction fuel generalizing s with
  | zero => exact absurd h List.not_mem_nil
  | succ fuel ih =>
    rw [piecesOf] at h
    split at h
    · exact absurd h List.not_mem_nil
    · by_cases hlast : s.drop size = []
      · rw [piecesOf_eq_nil hlast] at h
        exact absurd h List.not_mem_nil
      · have hlong : size < s.length := by
          rw [List.drop_eq_nil_iff] at hlast
          omega
        cases hrest : piecesOf size fuel (s.drop size) with
        | nil =>
          rw [hrest] at h
          exact absurd h List.not_mem_nil
        | cons next others =>
          rw [hrest, List.dropLast_cons_of_ne_nil (List.cons_ne_nil _ _), ← hrest] at h
          obtain rfl | hmem := List.mem_cons.1 h
          · rw [List.length_take, Nat.min_eq_left (Nat.le_of_lt hlong)]
          · exact ih hmem

end Pieces

theorem flatten_pieces (content : Bytes) : (pieces content).flatten = content :=
  flatten_piecesOf (by decide) (Nat.le_refl _)

/-! ## Files -/

section Files

variable {t : Tree} {place : Place} {c : Client}

theorem gives_serve {content : Bytes} (hc : c.Receptive)
    (hread : t.read [] place.path = .ok content) (isHead : Bool) :
    (serve t place isHead).Gives c ⟨.ok, describe place content c.headers⟩
      (if isHead then [] else pieces content) (.ok .ok) := by
  have hwaitless : (serve t place isHead).Waitless := by
    simp only [serve, hread]
    exact .edit (.commit (Script.waitless_writeAll _ _))
  have hplay : (serve t place isHead).play (fun _ => none) ⟨c.headers, none, []⟩ =
      some (.ok .ok, ⟨describe place content c.headers,
        some ⟨.ok, describe place content c.headers⟩,
        (if isHead then [] else pieces content).map (·, none)⟩) := by
    simp only [serve, hread, Script.play]
    rw [Script.play_writeAll _ _ rfl]
    rfl
  have hgives := Script.Gives.of_play hwaitless hc hplay rfl
  rwa [List.map_map, show Prod.fst ∘ (fun chunk : Bytes => (chunk, (none : Option IoError))) = id
    from rfl, List.map_id] at hgives

/-- **A file is served alike**, and so is its failure to be read, from whatever tree. -/
theorem headed_serve (t : Tree) (place : Place) : Script.Headed (serve t place) := by
  cases hread : t.read [] place.path with
  | error e =>
    have hserve : serve t place = fun isHead =>
        .emit (.log (.error ("Failed to read file '" ++ Utf8.lossy place.path ++ "': " ++
            e.report)))
          (Script.answerPlain .internalServerError isHead (.error (.io (.ofKind e)))) := by
      funext isHead
      simp only [serve, hread]
    rw [hserve]
    exact (Script.headed_answerPlain _ _).emit _
  | ok content =>
    refine fun c hc => ⟨_, pieces content, _, gives_serve hc hread, ?_⟩
    rw [Head.Announces, describe, Headers.values_insert, if_pos rfl, flatten_pieces]

end Files

/-! ## Whole answers -/

/-- The two requests that differ only in that one asks for the head alone. -/
def asking (r : Request) (isHead : Bool) : Request :=
  { r with method := if isHead then .head else .get }

theorem responder_asking (s : Site) (t : Tree) (cwd : Place) (r : Request) (isHead : Bool) :
    s.responder t cwd (asking r isHead) =
      match s.resolve t cwd r.uri.path with
      | .file place => serve t place isHead
      | .nothing none => .answerPlain .notFound isHead (.ok .notFound)
      | .nothing (some line) =>
        .emit (.log line) (.answerPlain .notFound isHead (.ok .notFound)) := by
  have hallowed : ¬ ((asking r isHead).method ≠ .get ∧ (asking r isHead).method ≠ .head) := by
    cases isHead <;> simp [asking]
  have hisHead : (asking r isHead).isHead = isHead := by
    cases isHead <;> rfl
  rw [responder, if_neg hallowed, hisHead, show (asking r isHead).uri = r.uri from rfl]
  rcases s.resolve t cwd r.uri.path with place | (_ | line) <;> rfl

theorem headed_responder (s : Site) (t : Tree) (cwd : Place) (r : Request) :
    Script.Headed fun isHead => s.responder t cwd (asking r isHead) := by
  simp only [responder_asking]
  rcases s.resolve t cwd r.uri.path with place | (_ | line)
  · exact headed_serve t place
  · exact Script.headed_answerPlain _ _
  · exact (Script.headed_answerPlain _ _).emit _

/-- A request with another method is refused, with a body and its length. -/
theorem gives_refused (s : Site) (t : Tree) (cwd : Place) {r : Request} {c : Client}
    (hc : c.Receptive) (hget : r.method ≠ .get) (hhead : r.method ≠ .head) :
    ∃ head chunks, (s.responder t cwd r).Gives c head chunks (.ok .methodNotAllowed) ∧
      head.status = .methodNotAllowed ∧ head.Announces chunks := by
  have hisHead : r.isHead = false := decide_eq_false hhead
  rw [responder, if_pos ⟨hget, hhead⟩, hisHead]
  exact ⟨_, _, (Script.gives_answerPlain (hc.edit _) .methodNotAllowed false _).edit, rfl,
    Script.announces_plain _ _⟩

/-- **Asking for the head alone changes nothing but the body.**  To a client that accepts everything
a site gives the same head and the same result for `GET` and for `HEAD`, without a chunk for `HEAD`,
and the head tells the length of the body.  This includes files that cannot be read any more when
their path has been resolved, and a request with another method gets a head that is true of its
body too.  The pieces of a file are its content, and each but the last is full. -/
theorem head_like_get (s : Site) (t : Tree) (cwd : Place) (r : Request) :
    (Script.Headed fun isHead => s.responder t cwd (asking r isHead)) ∧
    (∀ (t' : Tree) (place : Place), Script.Headed (serve t' place)) ∧
    (∀ c : Client, c.Receptive → r.method ≠ .get → r.method ≠ .head →
      ∃ head chunks, (s.responder t cwd r).Gives c head chunks (.ok .methodNotAllowed) ∧
        head.status = .methodNotAllowed ∧ head.Announces chunks) ∧
    ∀ place content, s.resolve t cwd r.uri.path = .file place →
      t.read [] place.path = .ok content →
      ∀ (c : Client) head chunks result, c.Receptive →
        (s.responder t cwd (asking r false)).Gives c head chunks result →
        head.status = .ok ∧ result = .ok .ok ∧ chunks.flatten = content ∧
          (∀ chunk ∈ chunks, 1 ≤ chunk.length ∧ chunk.length ≤ 16384) ∧
          ∀ chunk ∈ chunks.dropLast, chunk.length = 16384 := by
  refine ⟨s.headed_responder t cwd r, headed_serve, fun c hc hget hhead =>
    gives_refused s t cwd hc hget hhead, ?_⟩
  intro place content hresolve hread c head chunks result hc hgives
  rw [responder_asking, hresolve] at hgives
  obtain ⟨rfl, rfl, rfl⟩ := hgives.unique (gives_serve hc hread false)
  exact ⟨rfl, rfl, flatten_pieces content, fun chunk hchunk =>
    length_of_mem_piecesOf (by decide) hchunk, fun chunk hchunk =>
    length_of_mem_dropLast_piecesOf hchunk⟩

/-- A request for a path. -/
def requestFor (method : Method) (path : Bytes) : Request :=
  { method, uri := .origin ⟨path, none⟩ }

/-- A client without fields of its own that accepts whatever is written. -/
def recorder : Client := { link := .tape {} }

theorem recorder_receptive : recorder.Receptive := ⟨rfl, {}, rfl, rfl, fun _ => rfl⟩

theorem head_like_get_note :
    (∃ head chunks, (∀ isHead, (notes.responder notesTree []
          (asking (requestFor .get (bytes "//a/note")) isHead)).Gives recorder head
            (if isHead then [] else chunks) (.ok .ok)) ∧
        head.status = .ok ∧ head.Announces chunks ∧ chunks.flatten = bytes "read me") ∧
    ∃ head chunks,
      (notes.responder notesTree [] (requestFor ⟨bytes "POST", by decide⟩ (bytes "/"))).Gives
        recorder head chunks (.ok .methodNotAllowed) ∧ head.Announces chunks := by
  constructor
  · obtain ⟨hheaded, -, -, hfile⟩ :=
      head_like_get notes notesTree [] (requestFor .get (bytes "//a/note"))
    obtain ⟨head, chunks, result, hgives, hannounces⟩ := hheaded recorder recorder_receptive
    have hresolve : notes.resolve notesTree [] (bytes "//a/note") =
        .file [bytes "site", bytes "a", bytes "note"] := resolve_note.2 rfl
    have hread := read_of_resolve hresolve at?_note
    obtain ⟨hstatus, rfl, hcontent, -⟩ :=
      hfile _ _ hresolve hread recorder head chunks result recorder_receptive (hgives false)
    exact ⟨head, chunks, hgives, hstatus, hannounces, hcontent⟩
  · obtain ⟨-, -, hrefused, -⟩ :=
      head_like_get notes notesTree [] (requestFor ⟨bytes "POST", by decide⟩ (bytes "/"))
    obtain ⟨head, chunks, hgives, -, hannounces⟩ :=
      hrefused recorder recorder_receptive (by decide) (by decide)
    exact ⟨head, chunks, hgives, hannounces⟩

end Site

end EdgeCache
