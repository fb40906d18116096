import Mathlib.Data.List.Forall2
import Simpletron.Proofs.Rendering

namespace Simpletron.Program

open Text Text.Numeral

namespace Line

variable {l : List Char} {v : Int} {w : Word} {line : Line}

def Fits (line : Line) : Prop := ∀ w, line = .word w → Word.InRange w.toInt

theorem ofValue_eq_word_iff : ofValue v = .word w ↔ Word.InRange v ∧ w.toInt = v := by
  constructor
  · intro h
    apply Word.ofInt?_eq_some_iff.mp
    unfold ofValue at h
    split at h
    · cases h
    · split at h
      · next hw =>
        cases h
        exact hw
      · cases h
  · rintro ⟨hrange, rfl⟩
    exact ofValue_toInt hrange

theorem fits_ofValue (v : Int) : (ofValue v).Fits := by
  intro w h
  obtain ⟨hrange, rfl⟩ := ofValue_eq_word_iff.mp h
  exact hrange

theorem Says.fits (h : Says l line) : line.Fits := by
  rintro w rfl
  exact h.inRange

end Line

inductive Offer : Type
  | value (n : Nat) (v : Int)
  | text (n : Nat) (cs : List Char)

inductive Offer.Carries : Offer → Word → Prop
  | value {n w} : Word.InRange w.toInt → Carries (.value n w.toInt) w
  | text {n cs w} : Line.Says cs (.word w) → Carries (.text n cs) w

namespace Draft

structure Holds (d : Draft) (ws : List Word) : Prop where
  lays : d.Lays ws
  room : ws.length ≤ 100
  inRange : ∀ w ∈ ws, Word.InRange w.toInt

inductive Takes (d : Draft) (ws : List Word) (n : Nat) :
    Line → Except Error (Receipt × Draft) → Prop
  | blank : Takes d ws n .blank (.ok (.blank, d))
  | sentinel : Takes d ws n .sentinel (.ok (.done, d))
  | stored {w e} : ws.length < 100 → e.Holds (ws ++ [w]) →
      Takes d ws n (.word w) (.ok (.stored (ws.length + 1), e))
  | full {w} : ws.length = 100 → Takes d ws n (.word w) (.error .full)
  | unfit {v} : Takes d ws n (.unfit v) (.error (.unfit n v))
  | garbage {text} : Takes d ws n (.garbage text) (.error (.garbage n text))

/-- What comes of a line of text, told by the characters before its comment: nothing, a numeral or
something else. -/
inductive Receives (d : Draft) (ws : List Word) (n : Nat) (l : List Char) :
    Except Error (Receipt × Draft) → Prop
  | blank : Line.Core l [] → Receives d ws n l (.ok (.blank, d))
  | tooWide {c v} : Line.Core l c → Denotes c v → v < -2 ^ 63 ∨ 2 ^ 63 ≤ v →
      Receives d ws n l (.error (.garbage n (String.ofList c)))
  | sentinel {c} : Line.Core l c → Denotes c (-99999) → Receives d ws n l (.ok (.done, d))
  | unfit {c v} : Line.Core l c → Denotes c v → -2 ^ 63 ≤ v → v < 2 ^ 63 → v ≠ -99999 →
      ¬ Word.InRange v → Receives d ws n l (.error (.unfit n v))
  | stored {c w e} : Line.Core l c → Denotes c w.toInt → Word.InRange w.toInt → ws.length < 100 →
      e.Holds (ws ++ [w]) → Receives d ws n l (.ok (.stored (ws.length + 1), e))
  | full {c} {w : Word} : Line.Core l c → Denotes c w.toInt → Word.InRange w.toInt → ws.length = 100 →
      Receives d ws n l (.error .full)
  | garbage {c} : Line.Core l c → c ≠ [] → (∀ v, ¬ Denotes c v) →
      Receives d ws n l (.error (.garbage n (String.ofList c)))

section Take

variable {d e : Draft} {w : Word} {ws : List Word} {n : Nat} {l : List Char} {line : Line}
  {r : Except Error (Receipt × Draft)} {receipt : Receipt}

theorem Lays.unique (hd : d.Lays ws) (he : e.Lays ws) : d = e := by
  obtain ⟨m, a⟩ := d
  obtain ⟨m', b⟩ := e
  obtain rfl : m = m' := hd.memory.unique he.memory
  obtain rfl : a = b := hd.location.trans he.location.symm
  rfl

theorem holds_empty : empty.Holds [] := ⟨lays_empty, Nat.zero_le 100, nofun⟩

theorem Holds.concat (hd : d.Holds ws) (hlays : e.Lays (ws ++ [w])) (hlt : ws.length < 100)
    (hw : Word.InRange w.toInt) : e.Holds (ws ++ [w]) where
  lays := hlays
  room := by
    rw [List.length_append, List.length_singleton]
    exact hlt
  inRange := by
    rw [List.forall_mem_append, List.forall_mem_singleton]
    exact ⟨hd.inRange, hw⟩

theorem take_eq_iff (hd : d.Holds ws) (hline : line.Fits) :
    d.take n line = r ↔ Takes d ws n line r := by
  constructor
  · rintro rfl
    cases line with
    | blank => exact .blank
    | sentinel => exact .sentinel
    | word w =>
      have hw := hline w rfl
      obtain hlt | hfull := Nat.lt_or_eq_of_le hd.room
      · obtain ⟨e, he, hlays⟩ := take_word (n := n) hd.lays hw hlt
        rw [he]
        exact .stored hlt (hd.concat hlays hlt hw)
      · rw [take_word_full hd.lays hfull]
        exact .full hfull
    | unfit v => exact .unfit
    | garbage text => exact .garbage
  · intro h
    cases h with
    | stored hlt he =>
      obtain ⟨e', he', hlays⟩ := take_word (n := n) hd.lays (hline _ rfl) hlt
      rw [he', hlays.unique he.lays]
    | full hfull => exact take_word_full hd.lays hfull
    | _ => rfl

theorem fitsBits_iff {v : Int} : FitsBits 64 v ↔ -2 ^ 63 ≤ v ∧ v < 2 ^ 63 := Iff.rfl

theorem receives_garbage {c : List Char} (hcore : Line.Core l c) (hne : c ≠ [])
    (hno : ∀ v, Denotes c v → ¬ FitsBits 64 v) :
    Receives d ws n l (.error (.garbage n (String.ofList c))) := by
  by_cases hv : ∃ v, Denotes c v
  · obtain ⟨v, hv⟩ := hv
    refine .tooWide hcore hv ?_
    have hwide := hno v hv
    rw [fitsBits_iff] at hwide
    omega
  · exact .garbage hcore hne fun v h => hv ⟨v, h⟩

theorem Takes.receives (h : Takes d ws n line r) (hl : Line.Says l line) : Receives d ws n l r := by
  cases hl with
  | blank hcore =>
    cases h
    exact .blank hcore
  | garbage hcore hne hno =>
    cases h
    exact receives_garbage hcore hne hno
  | sentinel hcore hv =>
    cases h
    exact .sentinel hcore hv
  | word hcore hv hrange =>
    cases h with
    | stored hlt he => exact .stored hcore hv hrange hlt he
    | full hfull => exact .full hcore hv hrange hfull
  | unfit hcore hv hfits hs hrange =>
    cases h
    exact .unfit hcore hv hfits.1 hfits.2 hs hrange

theorem Receives.exists_says (h : Receives d ws n l r) :
    ∃ line, Line.Says l line ∧ Takes d ws n line r := by
  cases h with
  | blank hcore => exact ⟨_, .blank hcore, .blank⟩
  | @tooWide c v hcore hv hwide =>
    refine ⟨_, .garbage hcore hv.ne_nil fun u hu hfits => ?_, .garbage⟩
    obtain rfl : u = v := Option.some.inj ((read?_of_denotes hu).symm.trans (read?_of_denotes hv))
    rw [fitsBits_iff] at hfits
    omega
  | sentinel hcore hv => exact ⟨_, .sentinel hcore hv, .sentinel⟩
  | unfit hcore hv hlo hhi hs hrange => exact ⟨_, .unfit hcore hv ⟨hlo, hhi⟩ hs hrange, .unfit⟩
  | stored hcore hv hrange hlt he => exact ⟨_, .word hcore hv hrange, .stored hlt he⟩
  | full hcore hv hrange hfull => exact ⟨_, .word hcore hv hrange, .full hfull⟩
  | garbage hcore hne hno => exact ⟨_, .garbage hcore hne fun v hv => absurd hv (hno v), .garbage⟩

theorem Holds.takeText_eq_iff (hd : d.Holds ws) : d.takeText n l = r ↔ Receives d ws n l r := by
  constructor
  · intro h
    have hl := Line.says_ofText l
    exact ((take_eq_iff hd hl.fits).mp h).receives hl
  · intro h
    obtain ⟨line, hl, htakes⟩ := h.exists_says
    rw [takeText, hl.ofText_eq]
    exact (take_eq_iff hd hl.fits).mpr htakes

theorem Holds.of_take (hd : d.Holds ws) (hline : line.Fits) (h : d.take n line = .ok (receipt, e)) :
    ∃ us, e.Holds us := by
  cases (take_eq_iff hd hline).mp h with
  | blank => exact ⟨ws, hd⟩
  | sentinel => exact ⟨ws, hd⟩
  | stored _ he => exact ⟨_, he⟩

end Take

end Draft

namespace Offer

def put (d : Draft) : Offer → Except Error (Draft.Receipt × Draft)
  | .value n v => d.takeValue n v
  | .text n cs => d.takeText n cs

variable {o : Offer} {w : Word}

theorem Carries.inRange (h : o.Carries w) : Word.InRange w.toInt := by
  cases h with
  | value h => exact h
  | text h => exact h.inRange

theorem exists_line (o : Offer) :
    ∃ n line, (∀ d, o.put d = d.take n line) ∧ ∀ w, o.Carries w ↔ line = .word w := by
  cases o with
  | value n v =>
    refine ⟨n, .ofValue v, fun _ => rfl, fun w => ?_⟩
    rw [Line.ofValue_eq_word_iff]
    constructor
    · rintro ⟨h⟩
      exact ⟨h, rfl⟩
    · rintro ⟨h, rfl⟩
      exact .value h
  | text n cs =>
    refine ⟨n, .ofText cs, fun _ => rfl, fun w => ⟨?_, fun h => ?_⟩⟩
    · rintro (_ | ⟨h⟩)
      exact h.ofText_eq
    · exact .text (h ▸ Line.says_ofText cs)

end Offer

namespace Draft

def offer (d : Draft) (o : Offer) : Except Error Receipt × Draft :=
  match o.put d with
  | .ok (receipt, e) => (.ok receipt, e)
  | .error err => (.error err, d)

inductive Answers (d : Draft) (ws : List Word) (o : Offer) : Except Error Receipt × Draft → Prop
  | stored {w e} : o.Carries w → ws.length < 100 → e.Holds (ws ++ [w]) →
      Answers d ws o (.ok (.stored (ws.length + 1)), e)
  | full {w} : o.Carries w → ws.length = 100 → Answers d ws o (.error .full, d)
  | wordless {r} : (∀ w, ¬ o.Carries w) → r ≠ .error .full → (∀ k, r ≠ .ok (.stored k)) →
      Answers d ws o (r, d)

theorem Holds.answers {d : Draft} {ws : List Word} (hd : d.Holds ws) (o : Offer) :
    Answers d ws o (d.offer o) := by
  obtain ⟨n, line, hput, hcarries⟩ := o.exists_line
  have hline : line.Fits := fun w hw => ((hcarries w).mpr hw).inRange
  have htakes : Takes d ws n line (o.put d) := (take_eq_iff hd hline).mp (hput d).symm
  rw [offer]
  generalize o.put d = r at htakes
  cases htakes with
  | stored hlt he => exact .stored ((hcarries _).mpr rfl) hlt he
  | full hfull => exact .full ((hcarries _).mpr rfl) hfull
  | _ => exact .wordless (fun w hw => nomatch (hcarries w).mp hw) nofun nofun

def isStored : Except Error Receipt → Bool
  | .ok (.stored _) => true
  | _ => false

theorem isStored_iff {r : Except Error Receipt} : isStored r ↔ ∃ k, r = .ok (.stored k) := by
  unfold isStored
  split
  · simp
  · next h => simpa using h

end Draft

structure Ledger : Type where
  draft : Draft := .empty
  entries : List (Offer × Except Error Draft.Receipt) := []

namespace Ledger

def note (g : Ledger) (o : Offer) : Ledger :=
  { draft := (g.draft.offer o).2
    entries := g.entries ++ [(o, (g.draft.offer o).1)] }

def of (os : List Offer) : Ledger := os.foldl note {}

def accepted (g : Ledger) : List Offer :=
  (g.entries.filter fun entry => Draft.isStored entry.2).map Prod.fst

structure Accounts (g : Ledger) (ws : List Word) : Prop where
  holds : g.draft.Holds ws
  accepted : List.Forall₂ Offer.Carries g.accepted ws

variable {g : Ledger} {ws : List Word} {r : Except Error Draft.Receipt} {o : Offer}

theorem accepted_note (g : Ledger) (o : Offer) :
    (g.note o).accepted =
      g.accepted ++ if Draft.isStored (g.draft.offer o).1 then [o] else [] := by
  rw [accepted, note, List.filter_append, List.map_append, ← accepted]
  cases h : Draft.isStored (g.draft.offer o).1 <;> simp [h]

theorem Accounts.note (h : g.Accounts ws) (o : Offer) : ∃ us, (g.note o).Accounts us := by
  have hanswers := h.holds.answers o
  have haccepted := accepted_note g o
  unfold Ledger.note at haccepted ⊢
  generalize g.draft.offer o = x at hanswers haccepted ⊢
  -- Nothing but a receipt for a word adds to what was accepted.
  cases hanswers with
  | @stored w e hw _ he =>
    refine ⟨ws ++ [w], he, ?_⟩
    rw [haccepted]
    exact List.rel_append h.accepted (.cons hw .nil)
  | full _ _ =>
    refine ⟨ws, h.holds, ?_⟩
    rw [haccepted]
    exact (List.append_nil _).symm ▸ h.accepted
  | wordless _ _ hr =>
    refine ⟨ws, h.holds, ?_⟩
    rw [haccepted, if_neg (mt Draft.isStored_iff.mp (not_exists.mpr hr)), List.append_nil]
    exact h.accepted

theorem exists_accounts (os : List Offer) : ∃ ws, (of os).Accounts ws := by
  induction os using List.reverseRecOn with
  | nil => exact ⟨[], Draft.holds_empty, .nil⟩
  | append_singleton os o ih =>
    obtain ⟨ws, h⟩ := ih
    rw [of, List.foldl_append]
    exact h.note o

theorem Accounts.location_eq (h : g.Accounts ws) :
    g.draft.location = g.entries.countP fun entry => Draft.isStored entry.2 := by
  rw [h.holds.lays.location, ← h.accepted.length_eq, Ledger.accepted, List.length_map,
    List.countP_eq_length_filter]

theorem Accounts.image_eq (h : g.Accounts ws) :
    Memory.ofImage (ws.map Int32.toInt) = .ok g.draft.toMemory := by
  have hlen : (ws.map Int32.toInt).length ≤ 100 := by
    rw [List.length_map]
    exact h.holds.room
  have hrange : ∀ v ∈ ws.map Int32.toInt, Word.InRange v :=
    List.forall_mem_map.mpr h.holds.inRange
  obtain ⟨m, hm⟩ := Memory.exists_ofImage hlen hrange
  have hws : (ws.map Int32.toInt).map Int32.ofInt = ws := by
    rw [List.map_map]
    exact List.map_id'' Int32.ofInt_toInt ws
  have hlays := Memory.lays_of_ofImage hm
  rw [hws] at hlays
  rw [hm, hlays.unique h.holds.lays.memory]
  rfl

structure Sound (g : Ledger) : Prop where
  location_le : g.draft.location ≤ 100
  location_eq : g.draft.location = g.entries.countP fun entry => Draft.isStored entry.2
  holds : ∃ ws, List.Forall₂ Offer.Carries g.accepted ws ∧ (∀ w ∈ ws, Word.InRange w.toInt) ∧
    g.draft.Lays ws ∧ Memory.ofImage (ws.map Int32.toInt) = .ok g.draft.toMemory
  stores : ∀ o w, o.Carries w → g.draft.location < 100 →
    (g.draft.offer o).1 = .ok (.stored (g.draft.location + 1))
  stored : ∀ o k, (g.draft.offer o).1 = .ok (.stored k) →
    k = (g.draft.offer o).2.location ∧ k = g.draft.location + 1
  unchanged : ∀ o, (∀ k, (g.draft.offer o).1 ≠ .ok (.stored k)) → (g.draft.offer o).2 = g.draft
  full_iff : ∀ o, (g.draft.offer o).1 = .error .full ↔
    (∃ w, o.Carries w) ∧ g.draft.location = 100

theorem Accounts.sound (h : g.Accounts ws) : g.Sound where
  location_le := h.holds.lays.location ▸ h.holds.room
  location_eq := h.location_eq
  holds := ⟨ws, h.accepted, h.holds.inRange, h.holds.lays, h.image_eq⟩
  stores o w hw hlt := by
    have hanswers := h.holds.answers o
    rw [h.holds.lays.location] at hlt ⊢
    generalize g.draft.offer o = x at hanswers ⊢
    cases hanswers with
    | stored _ _ _ => rfl
    | full _ hfull => exact absurd hfull (Nat.ne_of_lt hlt)
    | wordless hno _ _ => exact absurd hw (hno w)
  stored o k hk := by
    have hanswers := h.holds.answers o
    generalize g.draft.offer o = x at hanswers hk ⊢
    cases hanswers with
    | stored _ _ he =>
      cases hk
      rw [h.holds.lays.location, he.lays.location, List.length_append, List.length_singleton]
      exact ⟨rfl, rfl⟩
    | full _ _ => cases hk
    | wordless _ _ hr => exact absurd hk (hr k)
  unchanged o hne := by
    have hanswers := h.holds.answers o
    generalize g.draft.offer o = x at hanswers hne ⊢
    cases hanswers with
    | stored _ _ _ => exact absurd rfl (hne _)
    | full _ _ => rfl
    | wordless _ _ _ => rfl
  full_iff o := by
    have hanswers := h.holds.answers o
    rw [h.holds.lays.location]
    generalize g.draft.offer o = x at hanswers ⊢
    cases hanswers with
    | stored _ hlt _ => simp [Nat.ne_of_lt hlt]
    | full hw hfull => simp [hfull, Exists.intro _ hw]
    | wordless hw hne _ => simp [hw, hne]

theorem sound_of (os : List Offer) : (of os).Sound := by
  obtain ⟨ws, h⟩ := exists_accounts os
  exact h.sound

example : (of [.value 1 (-99999), .value 2 10000, .text 3 "+0007 # a word".toList, .text 4 " ".toList,
    .text 5 "7 8".toList, .value 6 (-5)]).entries.map Prod.snd =
      [.ok .done, .error (.unfit 2 10000), .ok (.stored 1), .ok .blank, .error (.garbage 5 "7 8"),
        .ok (.stored 2)] := by
  decide +kernel

end Ledger

namespace Draft

theorem Obtainable.exists_holds {d : Draft} (h : d.Obtainable) : ∃ ws, d.Holds ws := by
  induction h with
  | empty => exact ⟨[], holds_empty⟩
  | value _ h ih =>
    obtain ⟨ws, hd⟩ := ih
    exact hd.of_take (Line.fits_ofValue _) h
  | text _ h ih =>
    obtain ⟨ws, hd⟩ := ih
    exact hd.of_take (Line.says_ofText _).fits h

theorem takeText_eq_iff_receives {d : Draft} (h : d.Obtainable) :
    ∃ ws, d.Holds ws ∧ ∀ n l r, d.takeText n l = r ↔ Receives d ws n l r := by
  obtain ⟨ws, hd⟩ := h.exists_holds
  exact ⟨ws, hd, fun _ _ _ => hd.takeText_eq_iff⟩

theorem takeText_eq_iff_receives_filled :
    ∃ d : Draft, d.Obtainable ∧ d.location = 100 ∧
      d.takeText 101 " -0099999 #".toList = .ok (.done, d) ∧
      d.takeText 101 "+7".toList = .error .full ∧
      d.takeText 101 "10000".toList = .error (.unfit 101 10000) ∧
      d.takeText 101 "9223372036854775808".toList =
        .error (.garbage 101 "9223372036854775808") := by
  obtain ⟨d, hd⟩ : ∃ d, empty.takeAll 1 (List.replicate 100 "7".toList) = .ok d := ⟨_, rfl⟩
  have hlocation : d.location = 100 := by
    have : (empty.takeAll 1 (List.replicate 100 "7".toList)).map location = .ok 100 := by
      decide +kernel
    rw [hd] at this
    exact Except.ok.inj this
  have hobtainable := Obtainable.empty.takeAll hd
  obtain ⟨ws, hholds, hiff⟩ := takeText_eq_iff_receives hobtainable
  have hfull : ws.length = 100 := hholds.lays.location.symm.trans hlocation
  refine ⟨d, hobtainable, hlocation, ?_, ?_, ?_, ?_⟩
  · exact (hiff ..).mpr (.sentinel (Line.core_code _) (denotes_of_read? (by decide)))
  · exact (hiff ..).mpr (.full (w := 7) (Line.core_code _) (denotes_of_read? (by decide)) (by decide)
      hfull)
  · exact (hiff ..).mpr (.unfit (Line.core_code _) (denotes_of_read? (by decide)) (by decide)
      (by decide) (by decide) (by decide))
  · exact (hiff ..).mpr (.tooWide (Line.core_code _) (denotes_of_read? (v := 9223372036854775808)
      (by decide)) (by decide))

end Draft

end Simpletron.Program
