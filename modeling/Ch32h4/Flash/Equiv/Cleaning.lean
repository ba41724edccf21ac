import Ch32h4.Flash.Driver
import Ch32h4.Park.Equiv.Handshake

/-!
# The flash driver cleans up

`cleans_up`: whatever the hardware and the other core do, `ch32h4_flash_erase` and
`ch32h4_flash_write` return with the flash locked and no request to park, have touched the pages of
their range in order up to the first that failed and nothing else, and a write that returns true has
left in its range what the source holds.

The two kinds of page operation meet one specification, `PageOp`: interrupts and the words of the
other core are as before, and only the page has changed.  `forPages_spec` carries it through the
loops.
-/

namespace Ch32h4.Flash

open Park

variable {c : Controller} {s s' : Board} {addr a x : Address} {page len : ℕ}

/-! ### Parking -/

/-- The steps of the answering core are among what the other core may do. -/
theorem answering_of_stepAnswer {s s' : State} (h : s.stepAnswer = some s') :
    Answering s.words s'.words := by
  obtain ⟨hreq, hlive, -, -⟩ := stepAnswer_frame h
  exact ⟨hreq, hlive⟩

/-- A call that gives up has taken its request back. -/
theorem req_of_returns_false {pc : RequestPc} {w w' : Words} (h : Returns pc w false w') :
    w'.req = false := by
  generalize hb : false = b at h
  induction h with
  | next _ _ _ _ ih => exact ih hb
  | done late hstep =>
    subst hb
    rename_i pc w w'
    cases pc <;> simp only [RequestPc.step, Prod.mk.injEq, reduceCtorEq, and_false] at hstep
    · split_ifs at hstep <;> simp at hstep
    · split_ifs at hstep <;> simp at hstep
    · rw [← hstep.1]

/-! ### Pages -/

/-- The byte is in the page that starts at `a`. -/
def InPage (page : ℕ) (a x : Address) : Prop :=
  (x - a).toNat < page

theorem inPage_of_pageOf_eq (ha : a.toNat % page = 0) (hpage : 0 < page)
    (h : pageOf page x = pageOf page a) : InPage page a x := by
  unfold pageOf at h
  have hx := Nat.div_add_mod x.toNat page
  have ha' := Nat.div_add_mod a.toNat page
  have hlt := Nat.mod_lt x.toNat hpage
  rw [ha, ← h] at ha'
  unfold InPage
  bv_omega

/-- **What an operation on one page does**, with its result. -/
structure PageOp (page : ℕ) (a : Address) (s : Board) (r : Bool × Board) : Prop where
  words : r.2.words = s.words
  mie : r.2.mie = s.mie
  pages : r.2.pages = s.pages ++ [(a, r.1)]
  mem : ∀ x, ¬InPage page a x → r.2.mem x = s.mem x

/-- Nothing has changed but the page, the registers and the clock. -/
structure Within (page : ℕ) (a : Address) (s s' : Board) : Prop where
  words : s'.words = s.words
  mie : s'.mie = s.mie
  pages : s'.pages = s.pages
  mem : ∀ x, ¬InPage page a x → s'.mem x = s.mem x

theorem Within.refl (page : ℕ) (a : Address) (s : Board) : Within page a s s :=
  ⟨rfl, rfl, rfl, fun _ _ => rfl⟩

theorem Within.trans {s'' : Board} (h : Within page a s s') (h' : Within page a s' s'') :
    Within page a s s'' where
  words := h'.words.trans h.words
  mie := h'.mie.trans h.mie
  pages := h'.pages.trans h.pages
  mem x hx := (h'.mem x hx).trans (h.mem x hx)

namespace Board

@[simp]
theorem readStatr_snd (c : Controller) (s : Board) :
    (s.readStatr c).2 = { s with clock := s.clock + 1 } :=
  rfl

/-- A wait leaves all but the clock as it is. -/
theorem wait_snd (c : Controller) (busy : Status → Bool) (guard : ℕ) (s : Board) :
    ∃ n, (s.wait c busy guard).2 = { s with clock := n } := by
  induction guard generalizing s with
  | zero => exact ⟨_, rfl⟩
  | succ guard ih =>
    rw [wait]
    split_ifs
    · obtain ⟨n, hn⟩ := ih (s.readStatr c).2
      exact ⟨n, hn⟩
    · exact ⟨_, rfl⟩

theorem waitBsy_snd (c : Controller) (s : Board) : ∃ n, (s.waitBsy c).2 = { s with clock := n } :=
  wait_snd c _ _ s

theorem waitWr_snd (c : Controller) (s : Board) : ∃ n, (s.waitWr c).2 = { s with clock := n } :=
  wait_snd c _ _ s

/-- A page operation masks the interrupts around its body, and records the result. -/
theorem pageOp_of_within {r : Bool × Board} (h : Within page a { s with mie := false } r.2) :
    PageOp page a s (r.1, (r.2.restore s.mie).record a r.1) := by
  have hwords : r.2.words = s.words := h.words
  have hpages : r.2.pages = s.pages := h.pages
  have hmie : r.2.mie = false := h.mie
  cases hs : s.mie with
  | true => exact ⟨hwords, hs.symm, by simp [record, restore, hpages], h.mem⟩
  | false => exact ⟨hwords, by simp [record, restore, hmie, hs], by simp [record, restore, hpages],
      h.mem⟩

/-! ### Erasing a page -/

theorem within_start (ha : a.toNat % c.capacity.flashPageSize = 0) (haddr : s.addr = a) :
    Within c.capacity.flashPageSize a s (s.start c) where
  words := rfl
  mie := rfl
  pages := rfl
  mem x hx := by
    refine if_neg fun h => hx ?_
    rw [haddr] at h
    exact inPage_of_pageOf_eq ha c.capacity.flashPageSize_pos h

theorem within_erase (ha : a.toNat % c.capacity.flashPageSize = 0) :
    Within c.capacity.flashPageSize a s (s.erase c a).2 := by
  obtain ⟨n, hn⟩ := s.waitBsy_snd c
  unfold erase
  dsimp only
  split_ifs with hok
  · dsimp only
    generalize ht : ({ (s.waitBsy c).2 with
      ctlr := (s.waitBsy c).2.ctlr ||| crPerSet, addr := a } : Board) = t
    have hst : Within c.capacity.flashPageSize a s t := by
      rw [← ht, hn]
      exact ⟨rfl, rfl, rfl, fun _ _ => rfl⟩
    have hta : t.addr = a := by
      rw [← ht]
    obtain ⟨m, hm⟩ := (t.start c).waitBsy_snd c
    rw [hm]
    have hstart := within_start ha hta
    exact hst.trans ⟨hstart.words, hstart.mie, hstart.pages, hstart.mem⟩
  · rw [hn]
    exact ⟨rfl, rfl, rfl, fun _ _ => rfl⟩

/-- **`ch32h4_flash_ll_erase_page`** meets the specification. -/
theorem pageOp_erasePage (ha : a.toNat % c.capacity.flashPageSize = 0) :
    PageOp c.capacity.flashPageSize a s (s.erasePage c a) :=
  pageOp_of_within (within_erase ha)

/-! ### Programming a page -/

/-- The buffer holds words of the page at `a` only. -/
def BufferIn (a : Address) (s : Board) : Prop :=
  ∀ w ∈ s.buffer, ∃ i < progPage / 4, w.1 = a + BitVec.ofNat 32 (i * 4)

theorem within_store {i : ℕ} (hi : i < progPage / 4) (w : BitVec 32) :
    Within progPage a s (s.store c (a + BitVec.ofNat 32 (i * 4)) w) where
  words := rfl
  mie := rfl
  pages := rfl
  mem x hx := by
    refine if_neg fun h => hx ?_
    have hi' : i < 64 := hi
    show (x - a).toNat < 256
    bv_omega

theorem bufferIn_store {i : ℕ} (hi : i < progPage / 4) (w : BitVec 32) (hb : BufferIn a s) :
    BufferIn a (s.store c (a + BitVec.ofNat 32 (i * 4)) w) := by
  intro v hv
  rcases List.mem_append.mp hv with hv | hv
  · exact hb v hv
  · rw [List.mem_singleton] at hv
    exact ⟨i, hi, by rw [hv]⟩

theorem within_storeWords (src : ℕ → BitVec 32) (i : ℕ) (ok : Bool) (hb : BufferIn a s) :
    Within progPage a s (storeWords c a src i ok s).2 ∧
      BufferIn a (storeWords c a src i ok s).2 := by
  fun_induction storeWords c a src i ok s with
  | case1 i ok s h r ih =>
    obtain ⟨n, hn⟩ := (s.store c (a + BitVec.ofNat 32 (i * 4)) (src i)).waitWr_snd c
    have hr : r.2 = { s.store c (a + BitVec.ofNat 32 (i * 4)) (src i) with clock := n } := hn
    have hstore := within_store (s := s) (c := c) (a := a) h.2 (src i)
    have hwithin : Within progPage a s r.2 := by
      rw [hr]
      exact ⟨hstore.words, hstore.mie, hstore.pages, hstore.mem⟩
    have hbuffer : BufferIn a r.2 := by
      rw [hr]
      exact bufferIn_store (c := c) h.2 (src i) hb
    obtain ⟨hw, hbuf⟩ := ih hbuffer
    exact ⟨hwithin.trans hw, hbuf⟩
  | case2 => exact ⟨.refl _ _ _, hb⟩

theorem within_commit (ha : a.toNat % progPage = 0) (hb : BufferIn a s) :
    Within progPage a s (s.commit c) where
  words := rfl
  mie := rfl
  pages := rfl
  mem x hx := by
    refine if_neg fun h => hx ?_
    obtain ⟨w, hw, hsame⟩ := List.any_eq_true.mp h
    obtain ⟨i, hi, hwi⟩ := hb w hw
    have hsame' : pageOf progPage x = pageOf progPage w.1 := of_decide_eq_true hsame
    have hword : pageOf progPage w.1 = pageOf progPage a := by
      have hi' : i < 64 := hi
      have ha' : a.toNat % 256 = 0 := ha
      rw [hwi]
      show (a + BitVec.ofNat 32 (i * 4)).toNat / 256 = a.toNat / 256
      bv_omega
    exact inPage_of_pageOf_eq ha (by decide) (hsame'.trans hword)

theorem within_program (ha : a.toNat % progPage = 0) (src : ℕ → BitVec 32) :
    Within progPage a s (s.program c a src).2 := by
  unfold program
  dsimp only
  generalize hs₀ : ({ s with ctlr := s.ctlr ||| crPagePg, buffer := [] } : Board) = s₀
  have h₀ : Within progPage a s s₀ ∧ BufferIn a s₀ := by
    rw [← hs₀]
    exact ⟨⟨rfl, rfl, rfl, fun _ _ => rfl⟩, fun w hw => absurd hw List.not_mem_nil⟩
  generalize hr₁ :
    (if (s₀.waitBsy c).1 = true then (s₀.waitBsy c).2.waitWr c else s₀.waitBsy c) = r₁
  have h₁ : Within progPage a s r₁.2 ∧ BufferIn a r₁.2 := by
    obtain ⟨n, hn⟩ := s₀.waitBsy_snd c
    obtain ⟨m, hm⟩ := (s₀.waitBsy c).2.waitWr_snd c
    rw [← hr₁]
    split_ifs
    · rw [hm, hn]
      exact ⟨⟨h₀.1.words, h₀.1.mie, h₀.1.pages, h₀.1.mem⟩, h₀.2⟩
    · rw [hn]
      exact ⟨⟨h₀.1.words, h₀.1.mie, h₀.1.pages, h₀.1.mem⟩, h₀.2⟩
  obtain ⟨hw₂, hb₂⟩ := within_storeWords (c := c) src 0 r₁.1 h₁.2
  generalize storeWords c a src 0 r₁.1 r₁.2 = r₂ at hw₂ hb₂ ⊢
  have h₂ := h₁.1.trans hw₂
  split_ifs with hok
  · obtain ⟨n, hn⟩ := (r₂.2.commit c).waitBsy_snd c
    have hc := h₂.trans (within_commit (c := c) ha hb₂)
    rw [hn]
    exact ⟨hc.words, hc.mie, hc.pages, hc.mem⟩
  · exact ⟨h₂.words, h₂.mie, h₂.pages, h₂.mem⟩

/-- **`ch32h4_flash_ll_program_page`** meets the specification. -/
theorem pageOp_programPage (ha : a.toNat % progPage = 0) (src : ℕ → BitVec 32) :
    PageOp progPage a s (s.programPage c a src) :=
  pageOp_of_within (within_program ha src)

end Board

/-! ### The loops over the pages -/

/-- The pages of a range in order, up to the first that failed, with their results; all of them
were done if the result is true. -/
structure UpToFailure (page : ℕ) (addr : Address) (len : ℕ) (ok : Bool)
    (done : List (Address × Bool)) : Prop where
  inOrder :
    done.map Prod.fst = (List.range done.length).map fun i => addr + BitVec.ofNat 32 (i * page)
  inRange : done.length * page ≤ len
  earlier : ∀ p ∈ done.dropLast, p.2 = true
  all : ok = true → done.length * page = len ∧ ∀ p ∈ done, p.2 = true

theorem UpToFailure.nil (page : ℕ) (addr : Address) {len : ℕ} {ok : Bool}
    (h : ok = true → len = 0) : UpToFailure page addr len ok [] where
  inOrder := rfl
  inRange := by simp
  earlier := by simp
  all hok := by simp [h hok]

/-- A page that is done goes before the others. -/
theorem UpToFailure.cons {ok : Bool} {done : List (Address × Bool)}
    (h : UpToFailure page (addr + BitVec.ofNat 32 page) (len - page) ok done) (hle : page ≤ len) :
    UpToFailure page addr len ok ((addr, true) :: done) where
  inOrder := by
    rw [List.map_cons, h.inOrder, List.length_cons, List.range_succ_eq_map, List.map_cons,
      List.map_map]
    congr 1
    · simp
    · refine List.map_congr_left fun i _ => ?_
      simp only [Function.comp_apply, Nat.succ_eq_add_one, Nat.succ_mul, BitVec.ofNat_add]
      rw [BitVec.add_assoc, BitVec.add_comm (BitVec.ofNat 32 page)]
  inRange := by
    have := h.inRange
    rw [List.length_cons, Nat.succ_mul]
    omega
  earlier := by
    intro p hp
    cases done with
    | nil => exact absurd hp List.not_mem_nil
    | cons q rest =>
      rcases List.mem_cons.mp hp with rfl | hp
      · rfl
      · exact h.earlier p hp
  all hok := by
    obtain ⟨hlen, htrue⟩ := h.all hok
    refine ⟨?_, fun p hp => ?_⟩
    · rw [List.length_cons, Nat.succ_mul]
      omega
    · rcases List.mem_cons.mp hp with rfl | hp
      · rfl
      · exact htrue p hp

/-- The page that fails is the last. -/
theorem UpToFailure.failed (hle : page ≤ len) :
    UpToFailure page addr len false [(addr, false)] where
  inOrder := by simp
  inRange := by simpa using hle
  earlier := by simp
  all hok := by simp at hok

/-- The pages recorded since `s` are those, and no byte outside them has changed. -/
def Touched (page : ℕ) (addr : Address) (len : ℕ) (s : Board) (r : Bool × Board) : Prop :=
  ∃ done, r.2.pages = s.pages ++ done ∧ UpToFailure page addr len r.1 done ∧
    ∀ x, (∀ p ∈ done, ¬InPage page p.1 x) → r.2.mem x = s.mem x

/-- **What a loop over the pages does**. -/
structure Looped (page : ℕ) (addr : Address) (len : ℕ) (s : Board) (r : Bool × Board) : Prop where
  words : r.2.words = s.words
  mie : r.2.mie = s.mie
  touched : Touched page addr len s r

theorem Looped.stop {ok : Bool} (h : ok = true → len = 0) : Looped page addr len s (ok, s) :=
  ⟨rfl, rfl, [], (List.append_nil _).symm, .nil _ _ h, fun _ _ => rfl⟩

/-- A page that is done goes before what the rest of the loop does. -/
theorem Looped.cons {r r' : Bool × Board} (hop : PageOp page addr s r) (hr : r.1 = true)
    (h : Looped page (addr + BitVec.ofNat 32 page) (len - page) r.2 r') (hle : page ≤ len) :
    Looped page addr len s r' := by
  obtain ⟨hwords, hmie, done, hpages, hup, hmem⟩ := h
  refine ⟨hwords.trans hop.words, hmie.trans hop.mie, (addr, true) :: done, ?_, hup.cons hle, ?_⟩
  · rw [hpages, hop.pages, hr, List.append_assoc, List.singleton_append]
  · intro x hx
    rw [hmem x fun p hp => hx p (List.mem_cons_of_mem _ hp),
      hop.mem x (hx _ List.mem_cons_self)]

theorem Looped.failed {r : Bool × Board} (hop : PageOp page addr s r) (hr : r.1 = false)
    (hle : page ≤ len) : Looped page addr len s (false, r.2) := by
  refine ⟨hop.words, hop.mie, [(addr, false)], ?_, .failed hle, ?_⟩
  · rw [hop.pages, hr]
  · intro x hx
    exact hop.mem x (hx _ List.mem_cons_self)

theorem forPages_spec (addr : Address) (op : ℕ → Board → Bool × Board) (hpage : 0 < page)
    (hlen : page ∣ len)
    (hop : ∀ off s, page ∣ off → PageOp page (addr + BitVec.ofNat 32 off) s (op off s))
    (off : ℕ) (hoff : page ∣ off) (ok : Bool) (s : Board) :
    Looped page (addr + BitVec.ofNat 32 off) (len - off) s
      (Board.forPages op page len hpage off ok s) := by
  fun_induction Board.forPages op page len hpage off ok s with
  | case1 off ok s h r ih =>
    have hr : PageOp page (addr + BitVec.ofNat 32 off) s r := hop off s hoff
    have hle : page ≤ len - off :=
      Nat.le_of_dvd (Nat.sub_pos_of_lt h.2) (Nat.dvd_sub hlen hoff)
    cases hres : r.1 with
    | true =>
      have hrest := ih (Nat.dvd_add hoff (dvd_refl page))
      rw [BitVec.ofNat_add, ← BitVec.add_assoc, Nat.sub_add_eq, hres] at hrest
      exact .cons hr hres hrest hle
    | false =>
      rw [Board.forPages, if_neg (by simp)]
      exact .failed hr hres hle
  | case2 off ok s h =>
    refine .stop fun hok => ?_
    have : ¬off < len := fun hlt => h ⟨hok, hlt⟩
    omega

/-! ### The driver -/

/-- The flash is locked and nothing asks the other core to park. -/
structure Clean (s : Board) : Prop where
  lock : s.ctlr &&& crLockSet = crLockSet
  flock : s.ctlr &&& crFlockSet = crFlockSet
  unparked : s.words.req = false

/-- **How a call leaves the board**: clean, the interrupts as they were, and only the pages of the
range touched, in order and up to the first that failed. -/
structure CleansUp (page : ℕ) (addr : Address) (len : ℕ) (s : Board) (r : Bool × Board) : Prop where
  clean : Clean r.2
  mie : r.2.mie = s.mie
  touched : Touched page addr len s r
  outside : ∀ x, ¬(x - addr).toNat < len → r.2.mem x = s.mem x

theorem and_or_self (b m : BitVec 32) : (b ||| m) &&& m = m := by
  ext i hi
  rw [BitVec.getElem_and, BitVec.getElem_or]
  cases m[i] <;> simp

theorem clean_lock (s : Board) : Clean s.lock.unparkOther where
  lock := and_or_self _ _
  flock := by
    show (s.ctlr ||| crFlockSet ||| crLockSet) &&& crFlockSet = crFlockSet
    rw [BitVec.or_assoc, BitVec.or_comm crFlockSet, ← BitVec.or_assoc]
    exact and_or_self _ _
  unparked := rfl

/-- A byte of a touched page is in the range. -/
theorem UpToFailure.inRange_of_inPage {ok : Bool} {done : List (Address × Bool)}
    (h : UpToFailure page addr len ok done) (hlen : len < 2 ^ 32) {p : Address × Bool}
    (hp : p ∈ done) (hx : InPage page p.1 x) : (x - addr).toNat < len := by
  have hmem : p.1 ∈ done.map Prod.fst := List.mem_map_of_mem hp
  rw [h.inOrder, List.mem_map] at hmem
  obtain ⟨i, hi, hpi⟩ := hmem
  have hle : (i + 1) * page ≤ len :=
    (Nat.mul_le_mul_right page (List.mem_range.mp hi)).trans h.inRange
  rw [Nat.succ_mul] at hle
  unfold InPage at hx
  rw [← hpi] at hx
  generalize i * page = d at hx hle
  bv_omega

theorem CleansUp.of_looped {r : Bool × Board} {s₁ s' : Board} {ok : Bool} {len : BitVec 32}
    (h : Looped page addr len.toNat s₁ r)
    (hs : s₁.mem = s.mem ∧ s₁.pages = s.pages ∧ s₁.mie = s.mie)
    (hs' : s'.mem = r.2.mem ∧ s'.pages = r.2.pages ∧ s'.mie = r.2.mie) (hclean : Clean s')
    (hok : ok = true → r.1 = true) : CleansUp page addr len.toNat s (ok, s') := by
  obtain ⟨-, hmie, done, hpages, hup, hmem⟩ := h
  obtain ⟨hm, hp, hi⟩ := hs
  obtain ⟨hm', hp', hi'⟩ := hs'
  have hup' : UpToFailure page addr len.toNat ok done :=
    ⟨hup.inOrder, hup.inRange, hup.earlier, fun h => hup.all (hok h)⟩
  have hframe : ∀ x, (∀ p ∈ done, ¬InPage page p.1 x) → s'.mem x = s.mem x := by
    intro x hx
    rw [hm', hmem x hx, hm]
  refine ⟨hclean, hi'.trans (hmie.trans hi), ⟨done, ?_, hup', hframe⟩, fun x hx => ?_⟩
  · dsimp only
    rw [hp', hpages, hp]
  · exact hframe x fun p hpd hin => hx (hup'.inRange_of_inPage len.isLt hpd hin)

/-- A call that gives up before the loop. -/
theorem CleansUp.of_refused {s' : Board} {ok : Bool} (hclean : Clean s') (hmem : s'.mem = s.mem)
    (hpages : s'.pages = s.pages) (hmie : s'.mie = s.mie) (hok : ok = true → len = 0) :
    CleansUp page addr len s (ok, s') := by
  refine ⟨hclean, hmie, ⟨[], ?_, .nil _ _ hok, fun x _ => ?_⟩, fun x _ => ?_⟩
  · rw [hpages, List.append_nil]
  · rw [hmem]
  · rw [hmem]

/-- A park that is refused leaves the other core alone. -/
theorem clean_parkOther {park : ∀ w, ParkCall w} (hs : Clean s)
    (h : ¬(s.parkOther park).1 = true) : Clean (s.parkOther park).2 where
  lock := hs.lock
  flock := hs.flock
  unparked := by
    have hcall := (park s.words).returns
    have hfalse : (park s.words).result = false := by simpa [Board.parkOther] using h
    rw [hfalse] at hcall
    exact req_of_returns_false hcall

theorem aligned_add {off : ℕ} (hdvd : page ∣ 2 ^ 32) (ha : addr.toNat % page = 0)
    (hoff : page ∣ off) : (addr + BitVec.ofNat 32 off).toNat % page = 0 := by
  rw [BitVec.toNat_add, BitVec.toNat_ofNat, Nat.mod_mod_of_dvd _ hdvd, Nat.add_mod,
    Nat.mod_mod_of_dvd _ hdvd, ha, Nat.mod_eq_zero_of_dvd hoff, Nat.add_zero, Nat.zero_mod]

theorem flashPageSize_dvd (p : Capacity) : p.flashPageSize ∣ 2 ^ 32 := by
  cases p with
  | is480K => exact ⟨2 ^ 20, rfl⟩
  | is960K => exact ⟨2 ^ 19, rfl⟩

variable {park : ∀ w, ParkCall w} {len src : BitVec 32}

/-- **`ch32h4_flash_erase` cleans up.** -/
theorem cleansUp_flashErase (hs : Clean s) :
    CleansUp c.capacity.flashPageSize addr len.toNat s (s.flashErase c park addr len) := by
  unfold Board.flashErase
  dsimp only
  split_ifs with hargs hpark
  · exact .of_refused hs rfl rfl rfl (by simp)
  · exact .of_refused (clean_parkOther hs (by simpa using hpark)) rfl rfl rfl (by simp)
  · obtain ⟨-, haddr, hlen⟩ : ¬len = 0 ∧ addr.toNat % c.capacity.flashPageSize = 0 ∧
        len.toNat % c.capacity.flashPageSize = 0 := by simpa [not_or] using hargs
    have hloop := forPages_spec addr (fun off s => s.erasePage c (addr + BitVec.ofNat 32 off))
      c.capacity.flashPageSize_pos (Nat.dvd_of_mod_eq_zero hlen)
      (fun off s hoff =>
        Board.pageOp_erasePage (aligned_add (flashPageSize_dvd c.capacity) haddr hoff))
      0 (dvd_zero _) true ((s.parkOther park).2.unlock c)
    rw [BitVec.add_zero, Nat.sub_zero] at hloop
    exact .of_looped hloop ⟨rfl, rfl, rfl⟩ ⟨rfl, rfl, rfl⟩ (clean_lock _) id

/-- **`ch32h4_flash_write` cleans up.** -/
theorem cleansUp_flashWrite (hs : Clean s) :
    CleansUp progPage addr len.toNat s (s.flashWrite c park addr src len) := by
  unfold Board.flashWrite
  dsimp only
  split_ifs with hzero hargs hpark hres
  · exact .of_refused hs rfl rfl rfl (by simp [hzero])
  · exact .of_refused hs rfl rfl rfl (by simp)
  · exact .of_refused (clean_parkOther hs (by simpa using hpark)) rfl rfl rfl (by simp)
  all_goals
    obtain ⟨haddr, hlen⟩ : addr.toNat % progPage = 0 ∧ len.toNat % progPage = 0 := by
      simpa [not_or] using hargs
    have hloop := forPages_spec addr
      (fun off s => s.programPage c (addr + BitVec.ofNat 32 off) (s.copied src off))
      (by decide) (Nat.dvd_of_mod_eq_zero hlen)
      (fun off s hoff =>
        Board.pageOp_programPage (aligned_add ⟨2 ^ 24, rfl⟩ haddr hoff) _)
      0 (dvd_zero _) true ((s.parkOther park).2.unlock c)
    rw [BitVec.add_zero, Nat.sub_zero] at hloop
  · exact .of_looped hloop ⟨rfl, rfl, rfl⟩ ⟨rfl, rfl, rfl⟩ (clean_lock _) (by simp)
  · exact .of_looped hloop ⟨rfl, rfl, rfl⟩ ⟨rfl, rfl, rfl⟩ (clean_lock _)
      (fun _ => by simpa using hres)

/-- The range reads back as the source, which is what it was where it is not in the range. -/
def ReadsBack (addr src : Address) (len : ℕ) (s s' : Board) : Prop :=
  ∀ i < len,
    s'.mem (addr + BitVec.ofNat 32 i) = s'.mem (src + BitVec.ofNat 32 i) ∧
      (¬(src + BitVec.ofNat 32 i - addr).toNat < len →
        s'.mem (src + BitVec.ofNat 32 i) = s.mem (src + BitVec.ofNat 32 i))

/-- A write that returns true has compared the range. -/
theorem sameBytes_of_flashWrite (h : (s.flashWrite c park addr src len).1 = true) :
    (s.flashWrite c park addr src len).2.sameBytes addr src len.toNat = true := by
  unfold Board.flashWrite at h ⊢
  dsimp only at h ⊢
  split_ifs at h ⊢ with hzero
  · simp [hzero, Board.sameBytes]
  · exact h

/-- **The driver cleans up**, on every path of both calls, and a write that returns true has
written. -/
theorem cleans_up (c : Controller) (park : ∀ w, ParkCall w) {s : Board} (hs : Clean s)
    (addr src len : BitVec 32) :
    CleansUp c.capacity.flashPageSize addr len.toNat s (s.flashErase c park addr len) ∧
      CleansUp progPage addr len.toNat s (s.flashWrite c park addr src len) ∧
      ((s.flashWrite c park addr src len).1 = true →
        ReadsBack addr src len.toNat s (s.flashWrite c park addr src len).2) := by
  have hwrite : CleansUp progPage addr len.toNat s (s.flashWrite c park addr src len) :=
    cleansUp_flashWrite hs
  refine ⟨cleansUp_flashErase hs, hwrite, fun h i hi => ⟨?_, hwrite.outside _⟩⟩
  have hsame := sameBytes_of_flashWrite h
  exact eq_of_beq (List.all_eq_true.mp hsame i (List.mem_range.mpr hi))

/-! ### A part without faults -/

/-- It is never busy and does what it is told. -/
def faultless : Controller where
  capacity := .is960K
  key := true
  modeKey := true
  statr _ := ⟨false, false⟩
  erased _ _ x := erasedByte x.toNat
  stored _ mem _ _ := mem
  committed _ mem buffer x :=
    match buffer.find? fun w => (x - w.1).toNat < 4 with
    | some w => ⟨w.2.extractLsb' (8 * (x - w.1).toNat) 8⟩
    | none => mem x

/-- The other core parks at once if it runs. -/
def parkAtOnce (w : Words) : ParkCall w :=
  if h : w.live = true then
    { result := true
      words := ⟨true, true, true, w.live⟩
      returns := by
        have load : RequestPc.step w false .loadLive = (w, .inl .clearAck) := by
          simp [RequestPc.step, h]
        have ack : Answering ⟨true, false, true, w.live⟩ ⟨true, true, true, w.live⟩ := ⟨rfl, rfl⟩
        refine .next false load ⟨rfl, rfl⟩ ?_
        refine .next false rfl ⟨rfl, rfl⟩ ?_
        refine .next false rfl ⟨rfl, rfl⟩ ?_
        refine .next false rfl ack ?_
        exact .done false rfl }
  else
    { result := true
      words := w
      returns := .done false (by simp [RequestPc.step, h]) }

/-- After a reset, with zeros everywhere. -/
def resetBoard : Board where
  mem _ := 0
  ctlr := crLockSet ||| crFlockSet
  addr := 0
  buffer := []
  mie := true
  words := ⟨false, false, false, true⟩
  clock := 0
  pages := []

theorem clean_resetBoard : Clean resetBoard :=
  ⟨by decide, by decide, rfl⟩

/-- A page of flash is erased, and a page of RAM written to it. -/
theorem cleans_up_page :
    CleansUp 8192 0x08010000 8192 resetBoard
        (resetBoard.flashErase faultless parkAtOnce 0x08010000 8192) ∧
      CleansUp 256 0x08010000 256 resetBoard
        (resetBoard.flashWrite faultless parkAtOnce 0x08010000 0x20100000 256) :=
  ⟨(cleans_up faultless parkAtOnce clean_resetBoard 0x08010000 0x20100000 8192).1,
    (cleans_up faultless parkAtOnce clean_resetBoard 0x08010000 0x20100000 256).2.1⟩

end Ch32h4.Flash
