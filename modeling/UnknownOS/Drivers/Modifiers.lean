import UnknownOS.Drivers.KeyboardFifo

/-!
# Modifiers and the keys that are down

The driver sees a stream of make and break codes; a key that is held repeats
its make code.  What the driver takes the modifiers to be is compared with the
keys that are down.  One flag stands for both shift keys, and Caps Lock toggles
without a look at whether its key is down already; all other keys are tracked.
-/

namespace UnknownOS.Keyboard

open UnknownOS.Memory
open UnknownOS.LinkedList
open UnknownOS.Klib

/-! ## The keys -/

/-- Which keys are down, by their make codes, and how often Caps Lock was
pressed. -/
structure Keys where
  down : Byte → Bool
  capsPresses : ℕ

def Keys.start : Keys := ⟨fun _ => false, 0⟩

/-- A break code is the make code with the top bit set.  The make code of a key
that is down is a repeat, not a press. -/
def Keys.event (keys : Keys) (scancode : Byte) : Keys :=
  if scancode &&& 0x80 ≠ 0 then
    { keys with down := Function.update keys.down (scancode &&& 0x7F) false }
  else
    { down := Function.update keys.down scancode true
      capsPresses := if scancode = 0x3A ∧ keys.down 0x3A = false then
          keys.capsPresses + 1
        else keys.capsPresses }

def keysAfter (scancodes : List Byte) : Keys :=
  scancodes.foldl Keys.event Keys.start

/-- The last event of either shift key. -/
def lastShift (scancodes : List Byte) : Option Byte :=
  (scancodes.filter ([0x2A, 0x36, 0xAA, 0xB6].contains ·)).getLast?

/-- `keyboard_process_scancode` for each scancode in turn. -/
def processAll (s : State) (scancodes : List Byte) : Option State :=
  scancodes.foldlM keyboardProcessScancode s

/-! ## Properties of a stream -/

/-- The variables as `keyboard.c` initialises them. -/
def State.Boot (s : State) : Prop :=
  s.shiftPressed = false ∧ s.capsLock = false ∧ ∀ k, s.scancodeDown k = false

/-- The property holds after every part of the stream. -/
def AtAllTimes (s₀ : State) (property : Keys → State → Prop)
    (scancodes : List Byte) : Prop :=
  ∀ seen, seen <+: scancodes →
    ∃ s, processAll s₀ seen = some s ∧ property (keysAfter seen) s

/-- Every event of the stream meets the condition when it arrives. -/
def EachEvent (condition : Keys → Byte → Prop) (scancodes : List Byte) : Prop :=
  ∀ seen scancode, seen ++ [scancode] <+: scancodes →
    condition (keysAfter seen) scancode

def ShiftFollows (keys : Keys) (s : State) : Prop :=
  s.shiftPressed = true ↔ keys.down 0x2A = true ∨ keys.down 0x36 = true

def CapsFollows (keys : Keys) (s : State) : Prop :=
  s.capsLock = true ↔ keys.capsPresses % 2 = 1

/-- No shift key is released while the other one is down. -/
def ReleasesLastShift (keys : Keys) (scancode : Byte) : Prop :=
  (scancode = 0xAA → keys.down 0x36 = false) ∧
    (scancode = 0xB6 → keys.down 0x2A = false)

/-- Caps Lock does not repeat. -/
def PressesCapsOnce (keys : Keys) (scancode : Byte) : Prop :=
  scancode = 0x3A → keys.down 0x3A = false

/-- The same modifiers, and the same characters queued. -/
def Agree (s s' : State) : Prop :=
  s.shiftPressed = s'.shiftPressed ∧ s.capsLock = s'.capsLock ∧
    ∃ fs ps fs' ps', Lists s fs ps ∧ Lists s' fs' ps' ∧
      ps.map s.char = ps'.map s'.char

/-- A repeat of `key` between the two parts of a stream changes nothing later. -/
def RepeatHarmless (s₀ : State) (before : List Byte) (key : Byte) : Prop :=
  ∀ after, ∃ s s', processAll s₀ (before ++ after) = some s ∧
    processAll s₀ (before ++ key :: after) = some s' ∧ Agree s s'

/-! ## One event -/

theorem and_low_of_make : ∀ scancode : Byte,
    scancode &&& 0x80 = 0 → scancode &&& 0x7F = scancode := by
  decide +kernel

/-- A key has two codes. -/
theorem codes_of_key : ∀ scancode : Byte,
    (scancode &&& 0x7F = 0x2A → scancode = 0x2A ∨ scancode = 0xAA) ∧
      (scancode &&& 0x7F = 0x36 → scancode = 0x36 ∨ scancode = 0xB6) := by
  decide +kernel

theorem code_of_modifier : ∀ scancode : Byte,
    scancode ∈ [0x2A, 0x36, 0x3A, 0xAA, 0xB6] →
      scancode &&& 0x7F ∈ [0x2A, 0x36, 0x3A] := by
  decide +kernel

theorem Keys.event_down (keys : Keys) (scancode k : Byte) :
    (keys.event scancode).down k =
      if k = scancode &&& 0x7F then decide (scancode &&& 0x80 = 0)
      else keys.down k := by
  by_cases hbreak : scancode &&& 0x80 ≠ 0
  · rw [Keys.event, if_pos hbreak, decide_eq_false hbreak]
    exact Function.update_apply _ _ _ _
  · have hmake : scancode &&& 0x80 = 0 := not_not.mp hbreak
    rw [Keys.event, if_neg hbreak, and_low_of_make _ hmake, decide_eq_true hmake]
    exact Function.update_apply _ _ _ _

theorem Keys.event_capsPresses (keys : Keys) (scancode : Byte) :
    (keys.event scancode).capsPresses =
      if scancode = 0x3A ∧ keys.down 0x3A = false then keys.capsPresses + 1
      else keys.capsPresses := by
  by_cases hbreak : scancode &&& 0x80 ≠ 0
  · have hother : scancode ≠ 0x3A := by
      rintro rfl
      exact hbreak (by decide)
    rw [Keys.event, if_pos hbreak, if_neg (fun h => hother h.1)]
  · rw [Keys.event, if_neg hbreak]

theorem keysAfter_snoc (scancodes : List Byte) (scancode : Byte) :
    keysAfter (scancodes ++ [scancode]) = (keysAfter scancodes).event scancode := by
  rw [keysAfter, List.foldl_append]
  rfl

/-- Only make codes name keys that are down. -/
theorem make_of_down {scancodes : List Byte} {k : Byte}
    (hdown : (keysAfter scancodes).down k = true) : k &&& 0x80 = 0 := by
  induction scancodes using List.reverseRecOn with
  | nil => cases hdown
  | append_singleton scancodes scancode ih =>
      rw [keysAfter_snoc, Keys.event_down] at hdown
      split_ifs at hdown with hkey
      · rw [hkey, BitVec.and_assoc]
        exact BitVec.and_zero
      · exact ih hdown

theorem lastShift_snoc (scancodes : List Byte) (scancode : Byte) :
    lastShift (scancodes ++ [scancode]) =
      if scancode ∈ [0x2A, 0x36, 0xAA, 0xB6] then some scancode
      else lastShift scancodes := by
  rw [lastShift, List.filter_append]
  by_cases hshift : scancode ∈ [0x2A, 0x36, 0xAA, 0xB6]
  · rw [if_pos hshift, List.filter_singleton, List.contains_iff_mem.mpr hshift]
    exact List.getLast?_concat
  · rw [if_neg hshift, List.filter_singleton,
      Bool.eq_false_iff.mpr (mt List.contains_iff_mem.mp hshift)]
    show (List.filter _ scancodes ++ []).getLast? = _
    rw [List.append_nil]
    rfl

/-! ## One scancode -/

section Scancode

variable {s s' : State} {scancode : Byte} {scancodes : List Byte}

theorem storeEvent_keeps {c : Byte} (hok : storeEvent s c = some s') :
    s'.shiftPressed = s.shiftPressed ∧ s'.capsLock = s.capsLock ∧
      s'.scancodeDown = s.scancodeDown := by
  simp only [storeEvent, Option.bind_eq_bind, Option.bind_eq_some_iff] at hok
  obtain ⟨node, -, links, -, evt, -, links', -, hok⟩ := hok
  obtain rfl := Option.some.inj hok
  exact ⟨rfl, rfl, rfl⟩

/-- What a scancode does to the variables apart from the lists. -/
theorem processScancode_effect (hok : keyboardProcessScancode s scancode = some s') :
    (s'.shiftPressed = if scancode = 0x2A ∨ scancode = 0x36 then true
      else if scancode = 0xAA ∨ scancode = 0xB6 then false else s.shiftPressed) ∧
    (s'.capsLock = if scancode = 0x3A then !s.capsLock else s.capsLock) ∧
    ∀ k : Byte, k ∉ [0x2A, 0x36, 0x3A] →
      s'.scancodeDown k.toNat =
        if k = scancode &&& 0x7F then decide (scancode &&& 0x80 = 0)
        else s.scancodeDown k.toNat := by
  have hother (hmodifier : scancode ∈ [0x2A, 0x36, 0x3A, 0xAA, 0xB6]) (k : Byte)
      (hk : k ∉ [0x2A, 0x36, 0x3A]) : k ≠ scancode &&& 0x7F := by
    rintro rfl
    exact hk (code_of_modifier scancode hmodifier)
  simp only [keyboardProcessScancode] at hok
  by_cases hmake : scancode = 0x2A ∨ scancode = 0x36
  · rw [if_pos hmake] at hok
    obtain rfl := Option.some.inj hok
    have hmodifier : scancode ∈ [0x2A, 0x36, 0x3A, 0xAA, 0xB6] := by grind
    refine ⟨(if_pos hmake).symm, (if_neg ?_).symm, fun k hk => ?_⟩
    · rcases hmake with rfl | rfl <;> decide
    · rw [if_neg (hother hmodifier k hk)]
  rw [if_neg hmake] at hok ⊢
  by_cases hrelease : scancode = 0xAA ∨ scancode = 0xB6
  · rw [if_pos hrelease] at hok
    obtain rfl := Option.some.inj hok
    have hmodifier : scancode ∈ [0x2A, 0x36, 0x3A, 0xAA, 0xB6] := by grind
    refine ⟨(if_pos hrelease).symm, (if_neg ?_).symm, fun k hk => ?_⟩
    · rcases hrelease with rfl | rfl <;> decide
    · rw [if_neg (hother hmodifier k hk)]
  rw [if_neg hrelease] at hok ⊢
  by_cases hcaps : scancode = 0x3A
  · rw [if_pos hcaps] at hok
    obtain rfl := Option.some.inj hok
    have hmodifier : scancode ∈ [0x2A, 0x36, 0x3A, 0xAA, 0xB6] := by grind
    refine ⟨rfl, (if_pos hcaps).symm, fun k hk => ?_⟩
    rw [if_neg (hother hmodifier k hk)]
  rw [if_neg hcaps] at hok ⊢
  by_cases hbreak : scancode &&& 0x80 ≠ 0
  · rw [if_pos hbreak] at hok
    obtain rfl := Option.some.inj hok
    refine ⟨rfl, rfl, fun k _ => ?_⟩
    rw [decide_eq_false hbreak]
    simp only [Function.update_apply, BitVec.toNat_inj]
  have hlow := and_low_of_make scancode (not_not.mp hbreak)
  rw [if_neg hbreak] at hok
  rw [hlow, decide_eq_true (not_not.mp hbreak)]
  by_cases hdown : s.scancodeDown scancode.toNat
  · rw [if_pos hdown] at hok
    obtain rfl := Option.some.inj hok
    refine ⟨rfl, rfl, fun k _ => ?_⟩
    split_ifs with hkey
    · rw [hkey, hdown]
    · rfl
  rw [if_neg hdown] at hok
  generalize (if (s.shiftPressed ^^ s.capsLock) = true then
    scancodeAsciiMaiusc.getD scancode.toNat 0
    else scancodeAsciiNomod.getD scancode.toNat 0) = c at hok
  -- Whether a character is stored or not, only the key is marked as down.
  have hkeeps : s'.shiftPressed = s.shiftPressed ∧ s'.capsLock = s.capsLock ∧
      s'.scancodeDown = Function.update s.scancodeDown scancode.toNat true := by
    split at hok
    · split at hok
      · exact storeEvent_keeps hok
      · obtain rfl := Option.some.inj hok
        exact ⟨rfl, rfl, rfl⟩
    · obtain rfl := Option.some.inj hok
      exact ⟨rfl, rfl, rfl⟩
  obtain ⟨hshift, hlock, hscancodes⟩ := hkeeps
  refine ⟨hshift, hlock, fun k _ => ?_⟩
  simp only [hscancodes, Function.update_apply, BitVec.toNat_inj]

end Scancode

/-! ## Streams -/

/-- What the driver keeps right on every stream: the lists, the keys apart from
the modifiers, and whether the last event of a shift key was a make. -/
structure Tracks (scancodes : List Byte) (s : State) : Prop where
  lists : ∃ fs ps, Lists s fs ps
  down : ∀ k : Byte, k ∉ [0x2A, 0x36, 0x3A] →
    s.scancodeDown k.toNat = (keysAfter scancodes).down k
  shift : s.shiftPressed = true ↔
    lastShift scancodes = some 0x2A ∨ lastShift scancodes = some 0x36

section Streams

variable {s s' s₀ : State} {scancode : Byte} {scancodes : List Byte}

theorem processAll_snoc (s₀ : State) (scancodes : List Byte) (scancode : Byte) :
    processAll s₀ (scancodes ++ [scancode]) =
      (processAll s₀ scancodes).bind fun s => keyboardProcessScancode s scancode := by
  rw [processAll, List.foldlM_append]
  cases hrun : scancodes.foldlM keyboardProcessScancode s₀ with
  | none =>
      rw [processAll, hrun]
      rfl
  | some s =>
      rw [processAll, hrun, Option.bind_some, Option.bind_eq_bind, Option.bind_some,
        List.foldlM_cons]
      simp only [List.foldlM_nil, bind_pure]

theorem Tracks.next (htracks : Tracks scancodes s) (scancode : Byte) :
    ∃ s', keyboardProcessScancode s scancode = some s' ∧
      Tracks (scancodes ++ [scancode]) s' := by
  obtain ⟨fs, ps, hlists⟩ := htracks.lists
  obtain ⟨s', fs', ps', hok, hlists', -⟩ := processScancode_lists hlists scancode
  obtain ⟨hshift, -, hdown⟩ := processScancode_effect hok
  refine ⟨s', hok, ⟨fs', ps', hlists'⟩, fun k hk => ?_, ?_⟩
  · rw [hdown k hk, keysAfter_snoc, Keys.event_down, htracks.down k hk]
  · rw [hshift, lastShift_snoc]
    by_cases hmake : scancode = 0x2A ∨ scancode = 0x36
    · rw [if_pos hmake, if_pos (by grind), Option.some.injEq, Option.some.injEq]
      exact iff_of_true rfl hmake
    rw [if_neg hmake]
    by_cases hrelease : scancode = 0xAA ∨ scancode = 0xB6
    · rw [if_pos hrelease, if_pos (by grind), Option.some.injEq, Option.some.injEq]
      exact iff_of_false Bool.false_ne_true hmake
    · rw [if_neg hrelease, if_neg (by grind)]
      exact htracks.shift

theorem tracks_start {s : State} (hboot : s.Boot) (hinit : keyboardInit s = some s₀) :
    Tracks [] s₀ ∧ s₀.Boot := by
  obtain ⟨s₁, hinit₁, hlists⟩ := keyboardInit_lists s
  obtain rfl := Option.some.inj (hinit₁.symm.trans hinit)
  simp only [keyboardInit, Option.bind_eq_bind, Option.bind_eq_some_iff] at hinit
  obtain ⟨links, -, hinit⟩ := hinit
  have hsame := Option.some.inj hinit
  have hboot₁ : s₁.Boot := by
    rw [← hsame]
    exact hboot
  obtain ⟨hshift, hcaps, hdown⟩ := hboot₁
  refine ⟨⟨⟨_, _, hlists⟩, fun k _ => hdown k.toNat, ?_⟩, hshift, hcaps, hdown⟩
  rw [hshift]
  exact iff_of_false Bool.false_ne_true (by rintro (hlast | hlast) <;> cases hlast)

theorem tracks_processAll (hstart : Tracks [] s₀) (scancodes : List Byte) :
    ∃ s, processAll s₀ scancodes = some s ∧ Tracks scancodes s := by
  induction scancodes using List.reverseRecOn with
  | nil => exact ⟨s₀, rfl, hstart⟩
  | append_singleton scancodes scancode ih =>
      obtain ⟨s, hrun, htracks⟩ := ih
      obtain ⟨s', hok, htracks'⟩ := htracks.next scancode
      refine ⟨s', ?_, htracks'⟩
      rw [processAll_snoc, hrun, Option.bind_some, hok]

/-- A property holds at all times exactly when each event meets the condition
under which one event keeps it. -/
theorem atAllTimes_iff {property : Keys → State → Prop}
    {condition : Keys → Byte → Prop} (hstart : Tracks [] s₀)
    (hfirst : property Keys.start s₀)
    (hstep : ∀ keys scancode s s', property keys s →
      keyboardProcessScancode s scancode = some s' →
      (property (keys.event scancode) s' ↔ condition keys scancode))
    (scancodes : List Byte) :
    AtAllTimes s₀ property scancodes ↔ EachEvent condition scancodes := by
  constructor
  · intro hall seen scancode hpart
    obtain ⟨s, hrun, hbefore⟩ :=
      hall seen ((List.prefix_append seen [scancode]).trans hpart)
    obtain ⟨s', hrun', hafter⟩ := hall _ hpart
    rw [processAll_snoc, hrun, Option.bind_some] at hrun'
    rw [keysAfter_snoc] at hafter
    exact (hstep _ _ _ _ hbefore hrun').mp hafter
  · intro heach seen
    induction seen using List.reverseRecOn with
    | nil => exact fun _ => ⟨s₀, rfl, hfirst⟩
    | append_singleton seen scancode ih =>
        intro hpart
        obtain ⟨s, hrun, hbefore⟩ :=
          ih ((List.prefix_append seen [scancode]).trans hpart)
        obtain ⟨s₁, hrun₁, htracks⟩ := tracks_processAll hstart seen
        obtain rfl := Option.some.inj (hrun.symm.trans hrun₁)
        obtain ⟨s', hok, -⟩ := htracks.next scancode
        refine ⟨s', by rw [processAll_snoc, hrun, Option.bind_some, hok], ?_⟩
        rw [keysAfter_snoc]
        exact (hstep _ _ _ _ hbefore hok).mpr (heach seen scancode hpart)

/-- One event keeps the shift flag right unless it releases one of two shift
keys. -/
theorem shiftFollows_event (keys : Keys) (scancode : Byte) (s s' : State)
    (hfollows : ShiftFollows keys s)
    (hok : keyboardProcessScancode s scancode = some s') :
    ShiftFollows (keys.event scancode) s' ↔ ReleasesLastShift keys scancode := by
  have hshift := (processScancode_effect hok).1
  rw [ShiftFollows, hshift, Keys.event_down, Keys.event_down, ReleasesLastShift]
  by_cases hleft : scancode = 0x2A
  · subst hleft
    simp
  by_cases hright : scancode = 0x36
  · subst hright
    simp
  by_cases hleftUp : scancode = 0xAA
  · subst hleftUp
    simp
  by_cases hrightUp : scancode = 0xB6
  · subst hrightUp
    simp
  obtain ⟨hnotLeft, hnotRight⟩ := codes_of_key scancode
  rw [if_neg (by grind), if_neg (by grind), if_neg (by grind), if_neg (by grind)]
  exact iff_of_true hfollows
    ⟨fun h => absurd h hleftUp, fun h => absurd h hrightUp⟩

/-- One event keeps the Caps Lock flag right unless it repeats Caps Lock. -/
theorem capsFollows_event (keys : Keys) (scancode : Byte) (s s' : State)
    (hfollows : CapsFollows keys s)
    (hok : keyboardProcessScancode s scancode = some s') :
    CapsFollows (keys.event scancode) s' ↔ PressesCapsOnce keys scancode := by
  have hcaps := (processScancode_effect hok).2.1
  rw [CapsFollows] at hfollows
  rw [CapsFollows, hcaps, Keys.event_capsPresses, PressesCapsOnce]
  by_cases hscancode : scancode = 0x3A
  · rw [if_pos hscancode]
    cases hdown : keys.down 0x3A with
    | false =>
        rw [if_pos ⟨hscancode, rfl⟩, Bool.not_eq_true', ← Bool.not_eq_true, hfollows]
        exact iff_of_true (by omega) fun _ => rfl
    | true =>
        rw [if_neg (by simp), Bool.not_eq_true', ← Bool.not_eq_true, hfollows]
        exact iff_of_false (by omega) fun h => absurd (h hscancode) (by simp)
  · rw [if_neg hscancode, if_neg (fun h => hscancode h.1)]
    exact iff_of_true hfollows fun h => absurd h hscancode

end Streams

/-! ## Repeats -/

section Repeats

variable {s s₀ : State} {key : Byte} {before : List Byte}

theorem Agree.refl (hlists : ∃ fs ps, Lists s fs ps) : Agree s s := by
  obtain ⟨fs, ps, hlists⟩ := hlists
  exact ⟨rfl, rfl, fs, ps, fs, ps, hlists, hlists, rfl⟩

/-- A repeat that leaves the state alone, which all but two kinds do. -/
theorem repeat_same (htracks : Tracks before s)
    (hdown : (keysAfter before).down key = true) (hcaps : key ≠ 0x3A)
    (hshift : key = 0x2A ∨ key = 0x36 →
      lastShift before = some 0x2A ∨ lastShift before = some 0x36) :
    keyboardProcessScancode s key = some s := by
  have hmake := make_of_down hdown
  by_cases hmodifier : key = 0x2A ∨ key = 0x36
  · have hpressed := htracks.shift.mpr (hshift hmodifier)
    rw [keyboardProcessScancode, if_pos hmodifier, ← hpressed]
  · have hrelease : ¬(key = 0xAA ∨ key = 0xB6) := by
      rintro (rfl | rfl) <;> exact absurd hmake (by decide)
    have hmarked : s.scancodeDown key.toNat = true := by
      rw [htracks.down key (by grind), hdown]
    rw [keyboardProcessScancode, if_neg hmodifier, if_neg hrelease, if_neg hcaps,
      if_neg (not_not_intro hmake), if_pos hmarked]

theorem processAll_repeat (s₀ : State) (before after : List Byte) (key : Byte) :
    processAll s₀ (before ++ key :: after) =
      (processAll s₀ (before ++ [key])).bind fun s => processAll s after := by
  rw [List.append_cons, processAll, List.foldlM_append]
  rfl

theorem repeatHarmless_iff (hstart : Tracks [] s₀)
    (hdown : (keysAfter before).down key = true) :
    RepeatHarmless s₀ before key ↔
      key ≠ 0x3A ∧ (key = 0x2A ∨ key = 0x36 →
        lastShift before = some 0x2A ∨ lastShift before = some 0x36) := by
  obtain ⟨s, hrun, htracks⟩ := tracks_processAll hstart before
  constructor
  · intro hharmless
    obtain ⟨t, t', ht, ht', hshift, hcaps, -⟩ := hharmless []
    rw [List.append_nil, hrun] at ht
    obtain rfl := Option.some.inj ht
    rw [processAll_snoc, hrun, Option.bind_some] at ht'
    obtain ⟨hshift', hcaps', -⟩ := processScancode_effect ht'
    constructor
    · rintro rfl
      rw [if_pos rfl] at hcaps'
      rw [hcaps'] at hcaps
      exact absurd hcaps.symm (Bool.not_ne_self _)
    · intro hmodifier
      rw [if_pos hmodifier] at hshift'
      exact htracks.shift.mp (hshift.trans hshift')
  · rintro ⟨hcaps, hshift⟩ after
    have hsame := repeat_same htracks hdown hcaps hshift
    obtain ⟨t, ht, htracks'⟩ := tracks_processAll hstart (before ++ after)
    have ht' : processAll s₀ (before ++ key :: after) = some t := by
      rw [processAll_repeat, processAll_snoc, hrun, Option.bind_some, hsame,
        Option.bind_some, ← ht, processAll, processAll, List.foldlM_append]
      rw [processAll] at hrun
      rw [hrun]
      rfl
    exact ⟨t, t, ht, ht', Agree.refl htracks'.lists⟩

end Repeats

/-- The three laws, each with the streams on which it holds. -/
theorem modifiers_follow_keys {s s₀ : State} (hboot : s.Boot)
    (hinit : keyboardInit s = some s₀) :
    (∀ scancodes, AtAllTimes s₀ ShiftFollows scancodes ↔
      EachEvent ReleasesLastShift scancodes) ∧
    (∀ scancodes, AtAllTimes s₀ CapsFollows scancodes ↔
      EachEvent PressesCapsOnce scancodes) ∧
    ∀ before key, (keysAfter before).down key = true →
      (RepeatHarmless s₀ before key ↔
        key ≠ 0x3A ∧ (key = 0x2A ∨ key = 0x36 →
          lastShift before = some 0x2A ∨ lastShift before = some 0x36)) := by
  obtain ⟨hstart, hshift, hcaps, -⟩ := tracks_start hboot hinit
  have hshiftFirst : ShiftFollows Keys.start s₀ := by
    rw [ShiftFollows, hshift]
    exact iff_of_false Bool.false_ne_true (by rintro (hdown | hdown) <;> cases hdown)
  have hcapsFirst : CapsFollows Keys.start s₀ := by
    rw [CapsFollows, hcaps]
    exact iff_of_false Bool.false_ne_true (by decide)
  exact ⟨atAllTimes_iff hstart hshiftFirst shiftFollows_event,
    atAllTimes_iff hstart hcapsFirst capsFollows_event,
    fun before key hdown => repeatHarmless_iff hstart hdown⟩

def bootState : State :=
  ⟨⟨fun _ => none, fun _ => none⟩, fun _ => 0, false, false, fun _ => false⟩

theorem bootState_boot : bootState.Boot :=
  ⟨rfl, rfl, fun _ => rfl⟩

/-- Both shift keys go down and the left one comes up again. -/
theorem not_eachEvent_releasesLastShift :
    ¬ EachEvent ReleasesLastShift [0x2A, 0x36, 0xAA] := by
  intro heach
  have hreleases := (heach [0x2A, 0x36] 0xAA (List.prefix_refl _)).1 rfl
  exact absurd hreleases (by decide)

/-- A letter may repeat; the shift keys may not overlap. -/
theorem modifiers_follow_keys_bootState :
    ∃ s₀, keyboardInit bootState = some s₀ ∧ RepeatHarmless s₀ [0x1E] 0x1E ∧
      ¬ AtAllTimes s₀ ShiftFollows [0x2A, 0x36, 0xAA] := by
  obtain ⟨s₀, hinit, -⟩ := keyboardInit_lists bootState
  obtain ⟨hshift, -, hrepeat⟩ := modifiers_follow_keys bootState_boot hinit
  refine ⟨s₀, hinit, (hrepeat [0x1E] 0x1E (by decide)).mpr ⟨by decide, by decide⟩, ?_⟩
  rw [hshift]
  exact not_eachEvent_releasesLastShift

theorem not_forall_modifiers_follow :
    ¬ ∀ (s s₀ : State), s.Boot → keyboardInit s = some s₀ → ∀ scancodes,
      AtAllTimes s₀ ShiftFollows scancodes ∧ AtAllTimes s₀ CapsFollows scancodes ∧
        ∀ before key, (keysAfter before).down key = true →
          RepeatHarmless s₀ before key := by
  intro hall
  obtain ⟨s₀, hinit, -⟩ := keyboardInit_lists bootState
  obtain ⟨hstart, -, -⟩ := tracks_start bootState_boot hinit
  have hrepeat := (hall bootState s₀ bootState_boot hinit []).2.2 [0x3A] 0x3A
    (by decide)
  exact ((repeatHarmless_iff hstart (by decide)).mp hrepeat).1 rfl

end UnknownOS.Keyboard
