import EdgeCache.Proofs.Exchange.Entries

/-!
# Variants that answer each other's requests

The entries under a key are meant to be told apart by what their responses depend on.  Two that
answer each other's requests are `Rivals`: which of them a third request finds depends on their
order alone.

A response takes the place of one entry only, the first that answers its request.  Another that does
so as well stays beside it (`Overlooks`), and this is the one way in which rivals come about
(`rivals_iff`).  It cannot happen as long as all responses under the key depend on the same headers,
for then the first is already the rival of the other.
-/

set_option autoImplicit false

namespace EdgeCache

theorem Entry.answers_iff (e : Entry) (current : Headers) :
    e.answers current = true ↔
      ∀ name ∈ Vary.names e.head.headers, e.requestHeaders.values name = current.values name := by
  simp [Entry.answers, Vary.selects]

namespace World

/-- Two entries under the key that have not expired then, and answer each other's requests. -/
structure Rivals (w : World) (key : Bytes) (now : Instant) (a b : Held) : Prop where
  left : a ∈ w.store.variantsOf key
  right : b ∈ w.store.variantsOf key
  ne : a ≠ b
  freshLeft : a.entry.expired now = false
  freshRight : b.entry.expired now = false
  answers : a.entry.answers b.entry.requestHeaders = true
  answered : b.entry.answers a.entry.requestHeaders = true

theorem Rivals.symm {w : World} {key : Bytes} {now : Instant} {a b : Held}
    (h : w.Rivals key now a b) : w.Rivals key now b a :=
  ⟨h.right, h.left, h.ne.symm, h.freshRight, h.freshLeft, h.answered, h.answers⟩

/-- The first entry under the key that answers a request with these headers. -/
def firstAnswering (w : World) (key : Bytes) (headers : Headers) : Option Held :=
  (w.store.variantsOf key).find? fun h => h.entry.answers headers

theorem firstAnswering_eq_some {w : World} {key : Bytes} {headers : Headers} {h : Held}
    (hfirst : w.firstAnswering key headers = some h) :
    h ∈ w.store.variantsOf key ∧ h.entry.answers headers = true :=
  ⟨List.mem_of_find?_eq_some hfirst,
    List.find?_some (p := fun h : Held => h.entry.answers headers) hfirst⟩

theorem exists_firstAnswering {w : World} {key : Bytes} {headers : Headers} {h : Held}
    (hmem : h ∈ w.store.variantsOf key) (hanswers : h.entry.answers headers = true) :
    ∃ first, w.firstAnswering key headers = some first :=
  Option.isSome_iff_exists.1 (List.find?_isSome.2 ⟨h, hmem, hanswers⟩)

/-- By a happening an exchange stores `b` in place of a private entry that answers its request, and
`a`, which answers it too, stays where it is. -/
structure Overlooks (front : Front) (key : Bytes) (a b : Held) (p : World × Happening) : Prop where
  files : Files front key b p
  stays : a ∈ p.1.store.variantsOf key
  answers : a.entry.answers b.entry.requestHeaders = true
  first : ∃ first, p.1.firstAnswering key b.entry.requestHeaders = some first ∧
    first.entry.isPublic = false ∧ first ≠ a

/-- By a happening an exchange stores `b`, and `a` stays beside it. -/
def Beside (front : Front) (key : Bytes) (a b : Held) (p : World × Happening) : Prop :=
  Files front key b p ∧ a ∈ p.1.store.variantsOf key ∧
    p.1.firstAnswering key b.entry.requestHeaders ≠ some a

section Run

variable {front : Front} {t : History} {w₀ w w' : World} {key : Bytes} {now : Instant} {a b : Held}

/-! ## How two entries come to stand side by side -/

/-- What is under the key after a happening: what was there, or an entry that has just been
stored. -/
theorem Filed.mem_cases {happening : Happening} {h : Held} (hw : Filed front t w)
    (hmove : w.happen front happening = some w') (hh : h ∈ w'.store.variantsOf key) :
    h ∈ w.store.variantsOf key ∨
      Files front key h (w, happening) ∧ h.id = w.store.nextId ∧
        ∀ g ∈ w'.store.variantsOf key, g = h ∨ Beside front key g h (w, happening) := by
  rcases hw.variantsOf_cases hmove key with hsub | ⟨e, hfiles, hstored⟩
  · exact .inl (hsub h hh)
  · rw [hstored, List.mem_append, List.mem_singleton] at hh
    rcases hh with hh | rfl
    · exact .inl (Store.mem_of_mem_kept hh)
    · refine .inr ⟨hfiles, rfl, fun g hg => ?_⟩
      rw [hstored, List.mem_append, List.mem_singleton] at hg
      rcases hg with hg | rfl
      · obtain ⟨hold, hkept⟩ := Store.mem_kept.1 hg
        exact .inr ⟨hfiles, hold, fun hfirst => hkept g hfirst rfl⟩
      · exact .inl rfl

/-- Of two entries under a key the later one was stored beside the other. -/
theorem beside_of_lt (h₀ : w₀.Blank) (hrun : Run (World.happen front) w₀ t w)
    (htidy : ∀ p ∈ t, Tidy p.2) (ha : a ∈ w.store.variantsOf key)
    (hb : b ∈ w.store.variantsOf key) (hlt : a.id < b.id) :
    ∃ p ∈ t, Beside front key a b p := by
  induction hrun with
  | start => simp [h₀.store, Store.variantsOf, Store.slotOf] at ha
  | @next t s₁ s₂ happening hrun hmove ih =>
    have htidy₁ : ∀ p ∈ t, Tidy p.2 := fun p hp => htidy p (List.mem_append_left _ hp)
    have hw : Filed front t s₁ := .of_run h₀ hrun htidy₁
    rcases hw.mem_cases hmove hb with hb₁ | ⟨-, -, hbeside⟩
    · rcases hw.mem_cases hmove ha with ha₁ | ⟨-, hid, -⟩
      · obtain ⟨p, hp, hbeside⟩ := ih htidy₁ ha₁ hb₁
        exact ⟨p, List.mem_append_left _ hp, hbeside⟩
      · -- the entry stored last has the highest number
        have hknown := hw.numbered.lt b (Store.stored_iff.2 hb₁).knows
        exact absurd hlt (by omega)
    · rcases hbeside a ha with rfl | hbeside
      · exact absurd hlt (Nat.lt_irrefl _)
      · exact ⟨_, List.mem_append_right _ (List.mem_singleton_self _), hbeside⟩

/-! ## What is replaced -/

/-- What an exchange replaces is private. -/
theorem Filed.first_private {p : World × Happening} {first : Held} (hw : Filed front t p.1)
    (hfiles : Files front key b p)
    (hfirst : p.1.firstAnswering key b.entry.requestHeaders = some first) :
    first.entry.isPublic = false := by
  obtain ⟨j, y, v, -, hy, rfl, hstores, -⟩ := hfiles
  have hstage : y.stage.visit? = some v := by
    obtain ⟨draft, f, head, verdict, hstage, -⟩ := hstores
    rw [hstage]
    rfl
  obtain ⟨u, hu, hkey, haccepts⟩ := hw.orderly.attended.own j y v hy hstage
  obtain ⟨slot, previous, hphase⟩ := hstores.producing (hw.orderly.course j y hy) hu
  have hprevious := hw.fitting.first v u slot previous hu hphase
  rw [hkey, haccepts, ← hw.requestHeaders hy hstores] at hprevious
  obtain rfl : previous = some first := hprevious.symm.trans hfirst
  have hoffers := hw.orderly.attended.offers v u hu
  rw [hphase] at hoffers
  exact hoffers.1

theorem Overlooks.of_beside (h₀ : w₀.Blank) (hrun : Run (World.happen front) w₀ t w)
    (htidy : ∀ p ∈ t, Tidy p.2) {p : World × Happening} (hp : p ∈ t)
    (hbeside : Beside front key a b p) (hanswers : a.entry.answers b.entry.requestHeaders = true) :
    Overlooks front key a b p := by
  obtain ⟨hfiles, hstays, hne⟩ := hbeside
  obtain ⟨t₁, -, hw, -⟩ := Filed.of_mem h₀ hrun htidy hp
  obtain ⟨first, hfirst⟩ := exists_firstAnswering hstays hanswers
  refine ⟨hfiles, hstays, hanswers, first, hfirst, hw.first_private hfiles hfirst, ?_⟩
  rintro rfl
  exact hne hfirst

theorem Overlooks.ne (h₀ : w₀.Blank) (hrun : Run (World.happen front) w₀ t w)
    (htidy : ∀ p ∈ t, Tidy p.2) {p : World × Happening} (hp : p ∈ t)
    (h : Overlooks front key a b p) : a ≠ b := by
  obtain ⟨t₁, -, hw, -⟩ := Filed.of_mem h₀ hrun htidy hp
  have hlt := hw.numbered.lt a (Store.stored_iff.2 h.stays).knows
  obtain ⟨j, y, v, -, -, -, -, hid⟩ := h.files
  rintro rfl
  omega

/-! ## Responses that depend on the same headers -/

/-- The responses stored under the key in the run depend on these headers. -/
def DependsOn (front : Front) (t : History) (key : Bytes) (names : List HeaderName) : Prop :=
  ∀ p ∈ t, ∀ held, Files front key held p →
    ∀ name, name ∈ Vary.names held.entry.head.headers ↔ name ∈ names

theorem DependsOn.answers_iff {names : List HeaderName} {p : World × Happening} {held : Held}
    (hn : DependsOn front t key names) (hp : p ∈ t) (hfiles : Files front key held p)
    (current : Headers) :
    held.entry.answers current = true ↔
      ∀ name ∈ names, held.entry.requestHeaders.values name = current.values name := by
  simp only [Entry.answers_iff, hn p hp held hfiles]

/-- Then none of the entries under the key answers the request of another. -/
theorem eq_of_answers {names : List HeaderName} (h₀ : w₀.Blank)
    (hrun : Run (World.happen front) w₀ t w) (htidy : ∀ p ∈ t, Tidy p.2)
    (hnames : DependsOn front t key names) (ha : a ∈ w.store.variantsOf key)
    (hb : b ∈ w.store.variantsOf key) (hanswers : a.entry.answers b.entry.requestHeaders = true) :
    a = b := by
  induction hrun generalizing a b with
  | start => simp [h₀.store, Store.variantsOf, Store.slotOf] at ha
  | @next t s₁ s₂ happening hrun hmove ih =>
    have hsub : ∀ p ∈ t, p ∈ t ++ [(s₁, happening)] := fun p hp => List.mem_append_left _ hp
    have htidy₁ : ∀ p ∈ t, Tidy p.2 := fun p hp => htidy p (hsub p hp)
    have hnames₁ : DependsOn front t key names := fun p hp => hnames p (hsub p hp)
    have hw : Filed front t s₁ := .of_run h₀ hrun htidy₁
    have hlast : (s₁, happening) ∈ t ++ [(s₁, happening)] :=
      List.mem_append_right _ (List.mem_singleton_self _)
    -- an entry that stays beside a new one differs from it under one of the names
    have hdiffers : ∀ old new, Beside front key old new (s₁, happening) →
        ¬ ∀ name ∈ names,
          old.entry.requestHeaders.values name = new.entry.requestHeaders.values name := by
      rintro old new ⟨hfiles, hstays, hne⟩ hsame
      obtain ⟨p, hp, hold⟩ := files_of_mem h₀ hrun htidy₁ old hstays
      have hold_new : old.entry.answers new.entry.requestHeaders = true :=
        (hnames₁.answers_iff hp hold _).2 hsame
      obtain ⟨first, hfirst⟩ := exists_firstAnswering hstays hold_new
      obtain ⟨hmem, hanswersNew⟩ := firstAnswering_eq_some hfirst
      obtain ⟨q, hq, hfirstFiles⟩ := files_of_mem h₀ hrun htidy₁ first hmem
      have hfirst_new : ∀ name ∈ names,
          first.entry.requestHeaders.values name = new.entry.requestHeaders.values name :=
        (hnames₁.answers_iff hq hfirstFiles _).1 hanswersNew
      have hfirst_old : first.entry.answers old.entry.requestHeaders = true :=
        (hnames₁.answers_iff hq hfirstFiles _).2 fun name hname =>
          (hfirst_new name hname).trans (hsame name hname).symm
      obtain rfl : first = old := ih htidy₁ hnames₁ hmem hstays hfirst_old
      exact hne hfirst
    obtain ⟨p, hp, hafiles⟩ := files_of_mem h₀ (hrun.next hmove) htidy a ha
    have hsame : ∀ name ∈ names,
        a.entry.requestHeaders.values name = b.entry.requestHeaders.values name :=
      (hnames.answers_iff hp hafiles _).1 hanswers
    rcases hw.mem_cases hmove hb with hb₁ | ⟨-, -, hbeside⟩
    · rcases hw.mem_cases hmove ha with ha₁ | ⟨-, -, hbeside⟩
      · exact ih htidy₁ hnames₁ ha₁ hb₁ hanswers
      · rcases hbeside b hb with hba | hbeside
        · exact hba.symm
        · exact absurd (fun name hname => (hsame name hname).symm) (hdiffers b a hbeside)
    · rcases hbeside a ha with hab | hbeside
      · exact hab
      · exact absurd hsame (hdiffers a b hbeside)

/-! ## When there are rivals -/

/-- **When two entries answer each other's requests.**  Two unexpired entries under a key do so
exactly if one answers the request of the other and the other has been overlooked when it was
stored: it replaced a private entry that stood before that other one, though both answered its
request.  So there are none as long as all responses that are stored under the key depend on the
same headers. -/
theorem rivals_iff (h₀ : w₀.Blank) (hrun : Run (World.happen front) w₀ t w)
    (htidy : ∀ p ∈ t, Tidy p.2) (key : Bytes) (now : Instant) :
    ((∃ a b, Rivals w key now a b) ↔
      ∃ a ∈ w.store.variantsOf key, ∃ b ∈ w.store.variantsOf key,
        a.entry.expired now = false ∧ b.entry.expired now = false ∧
        b.entry.answers a.entry.requestHeaders = true ∧
        ∃ p ∈ t, Overlooks front key a b p) ∧
    ((∃ names, DependsOn front t key names) → ¬ ∃ a b, Rivals w key now a b) := by
  have hw : Filed front t w := .of_run h₀ hrun htidy
  -- of two rivals the later one has overlooked the other
  have hlater : ∀ {a b : Held}, Rivals w key now a b → a.id < b.id →
      ∃ p ∈ t, Overlooks front key a b p := by
    intro a b h hlt
    obtain ⟨p, hp, hbeside⟩ := beside_of_lt h₀ hrun htidy h.left h.right hlt
    exact ⟨p, hp, .of_beside h₀ hrun htidy hp hbeside h.answers⟩
  refine ⟨⟨?_, ?_⟩, ?_⟩
  · rintro ⟨a, b, h⟩
    have hid : a.id ≠ b.id := fun hid =>
      h.ne (hw.numbered.inj a b (Store.stored_iff.2 h.left).knows
        (Store.stored_iff.2 h.right).knows hid)
    rcases Nat.lt_or_gt_of_ne hid with hlt | hgt
    · exact ⟨a, h.left, b, h.right, h.freshLeft, h.freshRight, h.answered, hlater h hlt⟩
    · exact ⟨b, h.right, a, h.left, h.freshRight, h.freshLeft, h.answers, hlater h.symm hgt⟩
  · rintro ⟨a, ha, b, hb, hfreshA, hfreshB, hanswered, p, hp, hover⟩
    exact ⟨a, b, ha, hb, hover.ne h₀ hrun htidy hp, hfreshA, hfreshB, hover.answers, hanswered⟩
  · rintro ⟨names, hnames⟩ ⟨a, b, h⟩
    exact h.ne (eq_of_answers h₀ hrun htidy hnames h.left h.right h.answers)

end Run

/-- A front with three responses: two that may not be kept for replay and depend on a header each,
and one that may and depends on the same header as the second. -/
def twoAlike : Front := .byDefault {} none fun i _ =>
  match i with
  | 0 => .edit (·.append .vary (bytes "te")) (.commit .notFound (.done (.ok .notFound)))
  | 1 => .edit (·.append .vary (bytes "referer")) (.commit .notFound (.done (.ok .notFound)))
  | _ =>
    .edit (·.append .vary (bytes "referer")) (.commit .ok (.write [1] fun _ => .done (.ok .ok)))

/-- Three calls, and what is in the store after them. -/
theorem calls_twoAlike :
    ∃ (r₁ r₂ r₃ : History × World) (a b : Held),
      call twoAlike (withFields "1" "2") fetchingHead {} = some r₁ ∧
      call twoAlike (withFields "2" "1") fetchingHead r₁.2 = some r₂ ∧
      call twoAlike (withFields "1" "1")
        [(.front, 10), (.origin, 6), (.front, 6), (.copier, 4), (.front, 2)] r₂.2 = some r₃ ∧
      r₁.2.Over ∧ r₂.2.Over ∧ r₃.2.Over ∧
      Rivals r₃.2 (withFields "1" "1").cacheKey r₃.2.clock a b ∧
      Vary.names a.entry.head.headers = Vary.names b.entry.head.headers := by
  have hcalls : ((call twoAlike (withFields "1" "2") fetchingHead {}).any fun r₁ =>
      (call twoAlike (withFields "2" "1") fetchingHead r₁.2).any fun r₂ =>
        (call twoAlike (withFields "1" "1")
            [(.front, 10), (.origin, 6), (.front, 6), (.copier, 4), (.front, 2)] r₂.2).any fun r₃ =>
          r₁.2.exchanges.all Exchange.isOver && r₂.2.exchanges.all Exchange.isOver &&
            r₃.2.exchanges.all Exchange.isOver &&
            (r₃.2.store.variantsOf (withFields "1" "1").cacheKey).any fun a =>
              (r₃.2.store.variantsOf (withFields "1" "1").cacheKey).any fun b =>
                a != b && !a.entry.expired r₃.2.clock && !b.entry.expired r₃.2.clock &&
                  a.entry.answers b.entry.requestHeaders &&
                  b.entry.answers a.entry.requestHeaders &&
                  Vary.names a.entry.head.headers == Vary.names b.entry.head.headers) = true := by
    decide +kernel
  simp only [Option.any_eq_true, Bool.and_eq_true, bne_iff_ne, beq_iff_eq, List.any_eq_true,
    Bool.not_eq_true'] at hcalls
  obtain ⟨r₁, hr₁, r₂, hr₂, r₃, hr₃, ⟨⟨hover₁, hover₂⟩, hover₃⟩, a, ha, b, hb,
    ⟨⟨⟨⟨hne, hfreshA⟩, hfreshB⟩, hanswers⟩, hanswered⟩, hnames⟩ := hcalls
  exact ⟨r₁, r₂, r₃, a, b, hr₁, hr₂, hr₃, over_of_all hover₁, over_of_all hover₂,
    over_of_all hover₃, ⟨ha, hb, hne, hfreshA, hfreshB, hanswers, hanswered⟩, hnames⟩

/-- The third response has been stored in place of the first, with the second overlooked. -/
theorem rivals_iff_twoAlike :
    ∃ (t : History) (w : World) (key : Bytes) (a b : Held) (p : World × Happening),
      Run (World.happen twoAlike) {} t w ∧ a ∈ w.store.variantsOf key ∧
      b ∈ w.store.variantsOf key ∧ p ∈ t ∧ Overlooks twoAlike key a b p := by
  obtain ⟨r₁, r₂, r₃, a, b, hr₁, hr₂, hr₃, -, -, -, hrivals, -⟩ := calls_twoAlike
  have hsolo₁ := solo_of_call hr₁
  have hsolo₂ := solo_of_call hr₂
  have hsolo₃ := solo_of_call hr₃
  have hrun := (hsolo₁.run.trans hsolo₂.run).trans hsolo₃.run
  have htidy : ∀ p ∈ r₁.1 ++ r₂.1 ++ r₃.1, Tidy p.2 := by
    intro p hp
    rcases List.mem_append.1 hp with hp | hp
    · exact (List.mem_append.1 hp).elim (hsolo₁.tidy p) (hsolo₂.tidy p)
    · exact hsolo₃.tidy p hp
  obtain ⟨a', ha', b', hb', -, -, -, p, hp, hover⟩ :=
    (rivals_iff ⟨rfl, rfl, rfl⟩ hrun htidy _ _).1.1 ⟨a, b, hrivals⟩
  exact ⟨_, _, _, a', b', p, hrun, ha', hb', hp, hover⟩

/-- **Two entries that answer each other's requests**, both of which depend on the same header: they
are in the store after three calls that came one after the other. -/
theorem rivals_twoAlike :
    ∃ (t₁ t₂ t₃ : History) (w₁ w₂ w₃ : World) (a b : Held),
      Solo twoAlike {} (withFields "1" "2") t₁ w₁ ∧ w₁.Over ∧
      Solo twoAlike w₁ (withFields "2" "1") t₂ w₂ ∧ w₂.Over ∧
      Solo twoAlike w₂ (withFields "1" "1") t₃ w₃ ∧ w₃.Over ∧
      Rivals w₃ (withFields "1" "1").cacheKey w₃.clock a b ∧
      Vary.names a.entry.head.headers = Vary.names b.entry.head.headers := by
  obtain ⟨r₁, r₂, r₃, a, b, hr₁, hr₂, hr₃, hover₁, hover₂, hover₃, hrivals, hnames⟩ :=
    calls_twoAlike
  exact ⟨r₁.1, r₂.1, r₃.1, r₁.2, r₂.2, r₃.2, a, b, solo_of_call hr₁, hover₁, solo_of_call hr₂,
    hover₂, solo_of_call hr₃, hover₃, hrivals, hnames⟩

end World
end EdgeCache
