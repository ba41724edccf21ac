import Ch32h4.Net.Pbuf

/-!
# Chains of pbufs

What the operations on pbufs do to a chain, from what is documented of them, and that `lwip` does
it (`documented_lwip`).

* `retire_eq`: taking a reference on the second pbuf and freeing the first frees the first alone.
* `free_chain`: freeing a chain frees all of it.
* `chain_cat`: a chain behind a chain is a chain.
-/

namespace Ch32h4.Net

section

variable {σ : Pool} {o : Option ℕ} {is js : List ℕ} {i : ℕ} {n m : Pbuf}

/-! ### Chains -/

theorem Chain.nodup (h : Chain σ o is) : is.Nodup := by
  induction is generalizing o with
  | nil => exact List.nodup_nil
  | cons i is ih =>
    obtain ⟨-, hnot, n, -, -, -, hrest⟩ := h
    exact List.nodup_cons.mpr ⟨hnot, ih hrest⟩

/-- The null pointer is the empty chain only. -/
theorem Chain.eq_nil (h : Chain σ none is) : is = [] := by
  cases is with
  | nil => rfl
  | cons i is => cases h.1

/-- Any other pointer is a chain with a last pbuf. -/
theorem Chain.exists_last {p : ℕ} (h : Chain σ (some p) is) : ∃ js l, is = js ++ [l] := by
  have hne : is ≠ [] := by
    rintro rfl
    cases h
  exact ⟨is.dropLast, is.getLast hne, (List.dropLast_concat_getLast hne).symm⟩

/-- The pbufs of a chain have one reference each. -/
theorem Chain.get (h : Chain σ o is) (hi : i ∈ is) :
    ∃ n, σ[i]? = some n ∧ n.ref = 1 ∧ n.frees = 0 := by
  induction is generalizing o with
  | nil => cases hi
  | cons j is ih =>
    obtain ⟨-, -, n, hn, href, hfrees, hrest⟩ := h
    rcases List.mem_cons.mp hi with rfl | hi
    · exact ⟨n, hn, href, hfrees⟩
    · exact ih hrest hi

theorem Chain.lt (h : Chain σ o is) (hi : i ∈ is) : i < σ.length := by
  obtain ⟨n, hn, -⟩ := h.get hi
  exact (List.getElem?_eq_some_iff.mp hn).1

theorem Chain.length_le (h : Chain σ o is) : is.length ≤ σ.length := by
  have hsub : is ⊆ List.range σ.length := fun i hi => List.mem_range.mpr (h.lt hi)
  have := h.nodup.length_le_of_subset hsub
  rwa [List.length_range] at this

/-- What happens to other pbufs does not matter. -/
theorem Chain.congr {σ' : Pool} (h : Chain σ o is) (heq : ∀ i ∈ is, σ'[i]? = σ[i]?) :
    Chain σ' o is := by
  induction is generalizing o with
  | nil => exact h
  | cons j is ih =>
    obtain ⟨ho, hnot, m, hm, href, hfrees, hrest⟩ := h
    have hrest' := ih hrest fun i hi => heq i (List.mem_cons_of_mem j hi)
    exact ⟨ho, hnot, m, (heq j List.mem_cons_self).trans hm, href, hfrees, hrest'⟩

theorem Chain.set (h : Chain σ o is) (hi : i ∉ is) (n : Pbuf) : Chain (σ.set i n) o is := by
  apply h.congr
  intro j hj
  exact List.getElem?_set_ne fun hij => hi (by rw [hij]; exact hj)

theorem Chain.append (h : Chain σ o is) (τ : Pool) : Chain (σ ++ τ) o is :=
  h.congr fun _ hi => List.getElem?_append_left (h.lt hi)

/-- Walking along a chain finds its pbufs. -/
theorem Chain.walk_eq (h : Chain σ o is) {fuel : ℕ} (hfuel : is.length ≤ fuel) :
    walk σ fuel o = is := by
  induction is generalizing o fuel with
  | nil =>
    rw [show o = none from h]
    cases fuel <;> rfl
  | cons i is ih =>
    obtain ⟨rfl, -, n, hn, -, -, hrest⟩ := h
    cases fuel with
    | zero => cases hfuel
    | succ fuel =>
      unfold walk
      rw [hn]
      dsimp only
      rw [ih hrest (Nat.le_of_succ_le_succ hfuel)]

theorem Chain.chain_eq (h : Chain σ o is) : chain σ o = is := h.walk_eq h.length_le

/-! ### Bytes -/

theorem payload_eq (hn : σ[i]? = some n) : payload σ i = n.payload := by
  unfold payload
  rw [hn]
  rfl

/-- The bytes of a pbuf never change. -/
theorem payload_set (hn : σ[i]? = some n) (hm : m.payload = n.payload) (j : ℕ) :
    payload (σ.set i m) j = payload σ j := by
  by_cases hij : i = j
  · rw [← hij, payload_eq hn, ← hm]
    exact payload_eq (List.getElem?_set_self (List.getElem?_eq_some_iff.mp hn).1)
  · unfold payload
    rw [List.getElem?_set_ne hij]

theorem bytes_set (hn : σ[i]? = some n) (hm : m.payload = n.payload) (is : List ℕ) :
    bytes (σ.set i m) is = bytes σ is := by
  unfold bytes
  rw [funext (payload_set hn hm)]

theorem map_payload_append (h : Chain σ o is) (τ : Pool) :
    is.map (payload (σ ++ τ)) = is.map (payload σ) := by
  apply List.map_congr_left
  intro i hi
  unfold payload
  rw [List.getElem?_append_left (h.lt hi)]

theorem bytes_cons (i : ℕ) (is : List ℕ) : bytes σ (i :: is) = payload σ i ++ bytes σ is := rfl

theorem bytes_append (is js : List ℕ) : bytes σ (is ++ js) = bytes σ is ++ bytes σ js :=
  List.flatMap_append

/-! ### Freeing -/

variable {api : PbufApi}

/-- What is left when the pbufs `is` have been freed. -/
def release (σ : Pool) : List ℕ → Pool
  | [] => σ
  | i :: is =>
    match σ[i]? with
    | none => release σ is
    | some n => release (σ.set i n.freed) is

/-- **One pbuf is retired**: with a second reference on the pbuf behind it, freeing it frees no
more, and the reference that was its link's is the one that was taken. -/
theorem retire_eq (hapi : api.Documented) (hn : σ[i]? = some n) (href : n.ref = 1)
    (hrest : Chain σ n.next is) (hnot : i ∉ is) :
    api.free (api.refNext σ n.next) i = σ.set i n.freed := by
  cases is with
  | nil =>
    rw [show n.next = none from hrest]
    exact hapi.free_last σ i n hn href hrest
  | cons j is =>
    obtain ⟨hnext, -, m, hm, href', -, -⟩ := hrest
    have hij : i ≠ j := fun h => hnot (h ▸ List.mem_cons_self)
    obtain ⟨hlt, hget⟩ := List.getElem?_eq_some_iff.mp hm
    have hlt' : j < (σ.set i n.freed).length := by rw [List.length_set]; exact hlt
    rw [hnext, PbufApi.refNext, hapi.ref_eq σ j m hm (by omega), hapi.free_link _ i n j
      (by rw [List.getElem?_set_ne hij.symm]; exact hn) href hnext, List.set_comm _ _ hij.symm,
      hapi.free_shared _ j _ (List.getElem?_set_self hlt') (by dsimp only; omega), List.set_set]
    have hback : ({ m with ref := m.ref + 1 - 1 } : Pbuf) = m := by
      rw [Nat.add_sub_cancel]
    dsimp only
    rw [hback]
    have hself : (σ.set i n.freed)[j]? = some m := by
      rw [List.getElem?_set_ne hij]
      exact hm
    obtain ⟨hlt'', hget'⟩ := List.getElem?_eq_some_iff.mp hself
    rw [← hget', List.set_getElem_self]

/-- **A chain is freed** as a whole. -/
theorem free_chain (hapi : api.Documented) (h : Chain σ (some i) (i :: is)) :
    api.free σ i = release σ (i :: is) := by
  induction is generalizing σ i with
  | nil =>
    obtain ⟨-, -, n, hn, href, -, hrest⟩ := h
    rw [hapi.free_last σ i n hn href hrest]
    unfold release
    rw [hn]
    rfl
  | cons j is ih =>
    obtain ⟨-, hnot, n, hn, href, -, hrest⟩ := h
    have hnext : n.next = some j := hrest.1
    rw [hapi.free_link σ i n j hn href hnext, ih (hnext ▸ hrest.set hnot _)]
    conv => rhs; unfold release
    rw [hn]

theorem release_cons (hn : σ[i]? = some n) (is : List ℕ) :
    release σ (i :: is) = release (σ.set i n.freed) is := by
  rw [release, hn]

theorem length_release (is : List ℕ) : (release σ is).length = σ.length := by
  induction is generalizing σ with
  | nil => rfl
  | cons i is ih =>
    cases hn : σ[i]? with
    | none => rw [release, hn, ih]
    | some n => rw [release_cons hn, ih, List.length_set]

theorem payload_release (is : List ℕ) (j : ℕ) : payload (release σ is) j = payload σ j := by
  induction is generalizing σ with
  | nil => rfl
  | cons i is ih =>
    cases hn : σ[i]? with
    | none => rw [release, hn, ih]
    | some n =>
      rw [release_cons hn, ih]
      exact payload_set hn (show n.freed.payload = n.payload from rfl) j

/-- The other pbufs are left alone. -/
theorem release_of_not_mem {k : ℕ} (hk : k ∉ is) : (release σ is)[k]? = σ[k]? := by
  induction is generalizing σ with
  | nil => rfl
  | cons i is ih =>
    rw [List.mem_cons, not_or] at hk
    cases hn : σ[i]? with
    | none => rw [release, hn, ih hk.2]
    | some n => rw [release_cons hn, ih hk.2, List.getElem?_set_ne (Ne.symm hk.1)]

/-- The first pbufs of a chain are freed once. -/
theorem Chain.release_of_mem (h : Chain σ o (is ++ js)) (hi : i ∈ is) :
    ∃ n, (release σ is)[i]? = some n ∧ n.ref = 0 ∧ n.frees = 1 := by
  induction is generalizing σ o with
  | nil => cases hi
  | cons j is ih =>
    obtain ⟨-, hnot, n, hn, -, hfrees, hrest⟩ := h
    rw [release_cons hn]
    by_cases hmem : i ∈ is
    · exact ih (hrest.set hnot _) hmem
    · obtain rfl := (List.mem_cons.mp hi).resolve_right hmem
      refine ⟨n.freed, ?_, rfl, congrArg (· + 1) hfrees⟩
      rw [release_of_not_mem hmem]
      exact List.getElem?_set_self (List.getElem?_eq_some_iff.mp hn).1

/-! ### Linking -/

/-- A chain behind a pbuf is the chain of its link. -/
theorem chain_cat (h : Chain σ o (is ++ [i])) (hn : σ[i]? = some n) {t : ℕ}
    (ht : Chain σ (some t) js) (hdisj : ∀ j ∈ js, j ∉ is ++ [i]) :
    Chain (σ.set i { n with next := some t }) o (is ++ [i] ++ js) := by
  induction is generalizing o with
  | nil =>
    obtain ⟨ho, -, m, hm, href, hfrees, -⟩ := h
    have hmn : m = n := Option.some.inj (hm.symm.trans hn)
    have hi : i ∉ js := fun hi => hdisj i hi List.mem_cons_self
    refine ⟨ho, hi, { n with next := some t }, ?_, hmn ▸ href, hmn ▸ hfrees, ht.set hi _⟩
    exact List.getElem?_set_self (List.getElem?_eq_some_iff.mp hn).1
  | cons k is ih =>
    obtain ⟨ho, hnot, m, hm, href, hfrees, hrest⟩ := h
    have hki : i ≠ k := fun hik => hnot (List.mem_append_right _ (hik ▸ List.mem_cons_self))
    refine ⟨ho, ?_, m, ?_, href, hfrees, ih hrest fun j hj hmem =>
      hdisj j hj (List.mem_cons_of_mem _ hmem)⟩
    · intro hk
      rcases List.mem_append.mp hk with hk | hk
      · exact hnot hk
      · exact hdisj k hk List.mem_cons_self
    · rw [List.getElem?_set_ne hki]
      exact hm

theorem length_link (base : ℕ) (ps : List (List UInt8)) : (link base ps).length = ps.length := by
  induction ps generalizing base with
  | nil => rfl
  | cons p ps ih =>
    cases ps with
    | nil => rfl
    | cons q ps =>
      rw [link, List.length_cons, ih]
      rfl

/-- The pbufs of a new chain are linked. -/
theorem chain_link (σ : Pool) (p : List UInt8) (ps : List (List UInt8)) :
    Chain (σ ++ link σ.length (p :: ps)) (some σ.length) (List.range' σ.length (ps.length + 1)) ∧
      (List.range' σ.length (ps.length + 1)).map (payload (σ ++ link σ.length (p :: ps))) =
        p :: ps := by
  induction ps generalizing σ p with
  | nil =>
    have hget : (σ ++ link σ.length [p])[σ.length]? = some ⟨p, none, 1, 0⟩ :=
      List.getElem?_concat_length
    refine ⟨⟨rfl, List.not_mem_nil, _, hget, rfl, rfl, rfl⟩, ?_⟩
    rw [List.length_nil, List.range'_one, List.map_singleton, payload_eq hget]
  | cons q ps ih =>
    have hsplit : σ ++ link σ.length (p :: q :: ps) =
        (σ ++ [⟨p, some (σ.length + 1), 1, 0⟩]) ++
          link (σ ++ [(⟨p, some (σ.length + 1), 1, 0⟩ : Pbuf)]).length (q :: ps) := by
      rw [link, List.length_append, List.append_assoc]
      rfl
    have hlen : (σ ++ [(⟨p, some (σ.length + 1), 1, 0⟩ : Pbuf)]).length = σ.length + 1 := by simp
    obtain ⟨hchain, hmap⟩ := ih (σ ++ [⟨p, some (σ.length + 1), 1, 0⟩]) q
    rw [← hsplit, hlen] at hchain hmap
    have hget : (σ ++ link σ.length (p :: q :: ps))[σ.length]? =
        some ⟨p, some (σ.length + 1), 1, 0⟩ := by
      rw [hsplit, List.getElem?_append_left (by omega)]
      exact List.getElem?_concat_length
    rw [List.length_cons, List.range'_succ]
    refine ⟨⟨rfl, ?_, _, hget, rfl, rfl, hchain⟩, ?_⟩
    · intro hmem
      have := (List.mem_range'_1.mp hmem).1
      omega
    · rw [List.map_cons, hmap, payload_eq hget]

/-! ### The functions computed -/

theorem held_pos (hn : σ[i]? = some n) (href : 0 < n.ref) : 0 < held σ := by
  obtain ⟨hlt, hget⟩ := List.getElem?_eq_some_iff.mp hn
  exact List.countP_pos_iff.mpr ⟨n, hget ▸ List.getElem_mem hlt, by simpa using href⟩

theorem held_freed (hn : σ[i]? = some n) (href : 0 < n.ref) :
    held (σ.set i n.freed) = held σ - 1 := by
  obtain ⟨hlt, hget⟩ := List.getElem?_eq_some_iff.mp hn
  unfold held
  rw [List.countP_set hlt, hget]
  simp [href, Pbuf.freed]

theorem freeWalk_shared (hn : σ[i]? = some n) (href : 1 < n.ref) (fuel : ℕ) :
    freeWalk (fuel + 1) σ i = σ.set i { n with ref := n.ref - 1 } := by
  rw [freeWalk, hn]
  exact if_neg (by omega)

theorem freeWalk_last (hn : σ[i]? = some n) (href : n.ref = 1) (hnext : n.next = none)
    (fuel : ℕ) : freeWalk (fuel + 1) σ i = σ.set i n.freed := by
  rw [freeWalk, hn]
  dsimp only
  rw [if_pos href, hnext]

theorem freeWalk_link (hn : σ[i]? = some n) (href : n.ref = 1) {q : ℕ} (hnext : n.next = some q)
    (fuel : ℕ) : freeWalk (fuel + 1) σ i = freeWalk fuel (σ.set i n.freed) q := by
  rw [freeWalk, hn]
  dsimp only
  rw [if_pos href, hnext]

/-- `pbuf_free` has room for the pbufs it comes to: each was held. -/
theorem exists_held (hn : σ[i]? = some n) (href : 0 < n.ref) :
    ∃ fuel, held σ = fuel + 1 ∧ held (σ.set i n.freed) = fuel := by
  have hpos := held_pos hn href
  exact ⟨held σ - 1, by omega, held_freed hn href⟩

/-- **`lwip` does what is documented.** -/
theorem documented_lwip : lwip.Documented where
  ref_eq σ p n hn _ := by
    unfold lwip
    dsimp only
    rw [hn]
  free_shared σ p n hn href := by
    obtain ⟨fuel, hfuel, -⟩ := exists_held hn (by omega)
    show freeWalk (held σ) σ p = _
    rw [hfuel]
    exact freeWalk_shared hn href fuel
  free_last σ p n hn href hnext := by
    obtain ⟨fuel, hfuel, -⟩ := exists_held hn (by omega)
    show freeWalk (held σ) σ p = _
    rw [hfuel]
    exact freeWalk_last hn href hnext fuel
  free_link σ p n q hn href hnext := by
    obtain ⟨fuel, hfuel, hfuel'⟩ := exists_held hn (by omega)
    show freeWalk (held σ) σ p = freeWalk (held (σ.set p n.freed)) (σ.set p n.freed) q
    rw [hfuel, hfuel']
    exact freeWalk_link hn href hnext fuel
  cat_eq σ h t is l n hchain hn := by
    unfold lwip
    dsimp only
    rw [hchain.chain_eq, List.getLast?_concat]
    dsimp only
    rw [hn]
  copyPartial_eq σ p is len off hchain := by
    show ((bytes σ (chain σ (some p))).drop off).take len = _
    rw [hchain.chain_eq]
  getAt_eq σ p is off b hchain hb := by
    show (bytes σ (chain σ (some p)))[off]?.getD 0 = b
    rw [hchain.chain_eq, hb]
    rfl

end

end Ch32h4.Net
