import Picore.Modbus.Devid

/-!
# Device identification, page by page

A client asks for object 0 and then for the next object id of each response, as long
as its More byte is 0xff. What it gets is compared with the objects there are.

The loop up to id 0x02 always ends on the first page. The loop up to 0x7f is broken
where an object does not fit and goes on with it in the next page, unless that object
is 0x7f itself, which is then lost. The loop up to 0xff has no end but a break.

Results:
1. `exchange_paging`, `paging_exchange`: an exchange follows the pages.
2. `paging_of_clean`, `clean_of_paging`: access codes whose last id is not 0xff.
3. `paging_never_complete`: the access code whose last id is.
4. `paging_complete_iff`: the access codes and objects for which a client gets all.
-/

namespace Picore.Modbus

open Memory Fuel DevidLemmas

variable {σ : Type}

/-! ## 1. Exchanges -/

/-- A client asks for the objects from `id` on, and goes on to the last page. -/
inductive Exchange (h : Handler σ) (code : UInt8) : PrModbus σ → UInt8 → List Page → Prop
  | last {s s' : PrModbus σ} {id : UInt8} {page : Page} :
      Responds h code s id s' page → page.more ≠ 0xff → Exchange h code s id [page]
  | more {s s' : PrModbus σ} {id : UInt8} {page : Page} {pages : List Page} :
      Responds h code s id s' page → page.more = 0xff → Exchange h code s' page.next pages →
      Exchange h code s id (page :: pages)

/-- The exchange from object 0 on ends, and gives exactly the objects up to `last`, in
order and correctly counted. -/
def PagesComplete (h : Handler σ) (code last : UInt8) (c : Catalogue) (s : PrModbus σ) : Prop :=
  ∃ pages, Exchange h code s 0 pages ∧
    pages.flatMap Page.objects = objectsFrom c 0 (last.toNat + 1) ∧
    ∀ page ∈ pages, page.count.toNat = page.objects.length

/-- The pages that a client gets from `id` on, without the unit. -/
inductive Paging (c : Catalogue) (last : UInt8) : Nat → List Page → Prop
  | last {id n : Nat} : PageEnds c last id n → last ≤ UInt8.ofNat (id + n) →
      Paging c last id [pageOf last (UInt8.ofNat (id + n)) (objectsFrom c id n)]
  | more {id n : Nat} {pages : List Page} : PageEnds c last id n → UInt8.ofNat (id + n) < last →
      Paging c last (id + n) pages →
      Paging c last id (pageOf last (UInt8.ofNat (id + n)) (objectsFrom c id n) :: pages)

/-- How much of a response the objects before object `k` take, on the page that they
end on. -/
def position (c : Catalogue) : Nat → Nat
  | 0 => 8
  | k + 1 =>
    match c.object (UInt8.ofNat k) with
    | none => position c k
    | some data =>
      if 252 < position c k + data.length then 10 + data.length
      else position c k + data.length + 2

/-- No page before an object ends at byte 252 or 253, and the last object fits on the
page that it comes to. -/
def PagesCleanly (c : Catalogue) (last : UInt8) : Prop :=
  ∀ k ≤ last.toNat, ∀ data, c.object (UInt8.ofNat k) = some data →
    position c k ≤ 252 ∧ (k = last.toNat → position c k + data.length ≤ 252)

namespace PagingLemmas

theorem pageOf_last {last next : UInt8} (h : last ≤ next)
    (objects : List (UInt8 × List UInt8)) :
    pageOf last next objects = ⟨0, 0, UInt8.ofNat objects.length, objects⟩ :=
  if_pos h

theorem pageOf_more {last next : UInt8} (h : next < last)
    (objects : List (UInt8 × List UInt8)) :
    pageOf last next objects = ⟨0xff, next, UInt8.ofNat objects.length, objects⟩ :=
  if_neg (UInt8.not_le.mpr h)

theorem pageOf_objects (last next : UInt8) (objects : List (UInt8 × List UInt8)) :
    (pageOf last next objects).objects = objects := by
  unfold pageOf
  split <;> rfl

theorem pageOf_count (last next : UInt8) (objects : List (UInt8 × List UInt8)) :
    (pageOf last next objects).count = UInt8.ofNat objects.length := by
  unfold pageOf
  split <;> rfl

theorem exchange_paging {h : Handler σ} {c : Catalogue} (hserves : Serves h c)
    {code last id' : UInt8} (hcode : lastObjectId code = some last) {s : PrModbus σ}
    {pages : List Page} (hex : Exchange h code s id' pages) :
    ∀ id, id' = UInt8.ofNat id → UInt8.ofNat id ≤ last → Paging c last id pages := by
  induction hex with
  | last hresp hmore =>
    rintro id rfl hid
    obtain ⟨n, hn, rfl⟩ := (responds_iff hserves hcode _ hid _).mp ⟨_, hresp⟩
    refine .last hn (UInt8.not_lt.mp fun hlt => ?_)
    rw [pageOf_more hlt] at hmore
    exact hmore rfl
  | more hresp hmore _ ih =>
    rintro id rfl hid
    obtain ⟨n, hn, rfl⟩ := (responds_iff hserves hcode _ hid _).mp ⟨_, hresp⟩
    rcases UInt8.lt_or_le (UInt8.ofNat (id + n)) last with hlt | hle
    · refine .more hn hlt (ih _ ?_ (UInt8.le_of_lt hlt))
      rw [pageOf_more hlt]
    · rw [pageOf_last hle] at hmore
      exact absurd hmore (show (0 : UInt8) ≠ 0xff by decide)

theorem paging_exchange {h : Handler σ} {c : Catalogue} (hserves : Serves h c)
    {code last : UInt8} (hcode : lastObjectId code = some last) {id : Nat} {pages : List Page}
    (hpages : Paging c last id pages) :
    UInt8.ofNat id ≤ last → ∀ s, Exchange h code s (UInt8.ofNat id) pages := by
  induction hpages with
  | last hn hle =>
    intro hid s
    obtain ⟨s', hresp⟩ := (responds_iff hserves hcode s hid _).mpr ⟨_, hn, rfl⟩
    refine .last hresp ?_
    rw [pageOf_last hle]
    exact show (0 : UInt8) ≠ 0xff by decide
  | more hn hlt _ ih =>
    intro hid s
    obtain ⟨s', hresp⟩ := (responds_iff hserves hcode s hid _).mpr ⟨_, hn, rfl⟩
    refine .more hresp (by rw [pageOf_more hlt]) ?_
    rw [pageOf_more hlt]
    exact ih (UInt8.le_of_lt hlt) s'

/-! ### Sizes of objects and pages -/

theorem pagePtr_some {c : Catalogue} {id n : Nat} {data : List UInt8}
    (h : c.object (UInt8.ofNat (id + n)) = some data) :
    pagePtr c id (n + 1) = pagePtr c id n + (data.length + 2) := by
  rw [pagePtr, h, objectSize_some h]

theorem pagePtr_none {c : Catalogue} {id n : Nat} (h : c.object (UInt8.ofNat (id + n)) = none) :
    pagePtr c id (n + 1) = pagePtr c id n := by
  rw [pagePtr, h, objectSize, Nat.add_zero]

theorem pagePtr_succ_le (c : Catalogue) (id n : Nat) :
    pagePtr c id (n + 1) ≤ pagePtr c id n + 66 := by
  cases h : c.object (UInt8.ofNat (id + n)) with
  | none =>
    rw [pagePtr_none h]
    exact Nat.le_add_right _ _
  | some data =>
    rw [pagePtr_some h]
    exact Nat.add_le_add_left (Nat.add_le_add_right (c.length_le _ _ h) 2) _

theorem found_some {c : Catalogue} {id : UInt8} {data : List UInt8} (h : c.object id = some data) :
    found c id = [(id, data)] := by
  rw [found, h]
  rfl

theorem found_none {c : Catalogue} {id : UInt8} (h : c.object id = none) : found c id = [] := by
  rw [found, h]
  rfl

theorem pagePtr_bounds (c : Catalogue) (id n : Nat) :
    8 + 3 * (objectsFrom c id n).length ≤ pagePtr c id n ∧
      pagePtr c id n ≤ 8 + 66 * (objectsFrom c id n).length := by
  induction n with
  | zero => exact ⟨Nat.le_refl 8, Nat.le_refl 8⟩
  | succ n ih =>
    rw [objectsFrom_succ, List.length_append]
    cases h : c.object (UInt8.ofNat (id + n)) with
    | none =>
      rw [found_none h, pagePtr_none h]
      exact ih
    | some data =>
      have h1 := c.length_pos _ _ h
      have h2 := c.length_le _ _ h
      rw [found_some h, pagePtr_some h, List.length_singleton]
      omega

theorem pageOf_count_toNat {c : Catalogue} {last : UInt8} {id n : Nat}
    (hn : PageEnds c last id n) (next : UInt8) :
    (pageOf last next (objectsFrom c id n)).count.toNat =
      (pageOf last next (objectsFrom c id n)).objects.length := by
  have h1 := (pagePtr_bounds c id n).1
  have h2 := hn.room
  rw [pageOf_count, pageOf_objects, UInt8.toNat_ofNat']
  omega

theorem position_some {c : Catalogue} {k : Nat} {data : List UInt8}
    (h : c.object (UInt8.ofNat k) = some data) :
    position c (k + 1) =
      if 252 < position c k + data.length then 10 + data.length
      else position c k + data.length + 2 := by
  rw [position, h]

theorem position_none {c : Catalogue} {k : Nat} (h : c.object (UInt8.ofNat k) = none) :
    position c (k + 1) = position c k := by
  rw [position, h]

/-- A page starts with this object: it is the first one, or did not fit on the page
before. -/
def Start (c : Catalogue) (id : Nat) : Prop :=
  id = 0 ∨ ∃ data, c.object (UInt8.ofNat id) = some data ∧ position c id ≤ 252 ∧
    252 < position c id + data.length

theorem position_start {c : Catalogue} {id : Nat} (hid : Start c id) :
    position c (id + 1) = pagePtr c id 1 := by
  rcases hid with rfl | ⟨data, hd, -, h1⟩
  · cases h : c.object (UInt8.ofNat (0 + 0)) with
    | none => rw [pagePtr_none h, position_none h, position, pagePtr]
    | some data =>
      have h1 := c.length_le _ _ h
      rw [pagePtr_some h, position_some h, position, pagePtr, if_neg (by omega)]
      omega
  · rw [pagePtr_some (n := 0) hd, position_some hd, pagePtr, if_pos h1]
    omega

theorem position_page {c : Catalogue} {id : Nat} (hid : Start c id) {n : Nat} (hn : 0 < n)
    (hroom : pagePtr c id n ≤ 254) : position c (id + n) = pagePtr c id n := by
  induction n with
  | zero => exact absurd hn (Nat.lt_irrefl 0)
  | succ n ih =>
    rcases Nat.eq_zero_or_pos n with rfl | h0
    · exact position_start hid
    · have h1 := ih h0 (Nat.le_trans (pagePtr_mono c id (Nat.le_succ n)) hroom)
      rw [← Nat.add_assoc]
      cases h : c.object (UInt8.ofNat (id + n)) with
      | none => rw [pagePtr_none h, position_none h, h1]
      | some data =>
        rw [pagePtr_some h] at hroom ⊢
        rw [position_some h, h1, if_neg (by omega), Nat.add_assoc]

theorem ofNat_le {i : Nat} {last : UInt8} (h : i ≤ last.toNat) : UInt8.ofNat i ≤ last := by
  have h1 := last.toNat_lt
  rw [UInt8.le_iff_toNat_le, UInt8.toNat_ofNat', Nat.mod_eq_of_lt (by omega)]
  exact h

theorem ofNat_lt {i : Nat} {last : UInt8} (h : i < last.toNat) : UInt8.ofNat i < last := by
  have h1 := last.toNat_lt
  rw [UInt8.lt_iff_toNat_lt, UInt8.toNat_ofNat', Nat.mod_eq_of_lt (by omega)]
  exact h

/-- The ids of a page do not wrap when the last one is not 0xff. -/
theorem page_le {last : UInt8} (hlast : last.toNat < 255) {id n : Nat} (hid : id ≤ last.toNat)
    (hrange : ∀ k < n, UInt8.ofNat (id + k) ≤ last) : id + n ≤ last.toNat + 1 := by
  induction n with
  | zero => exact Nat.le_succ_of_le hid
  | succ n ih =>
    have h1 := ih fun k hk => hrange k (Nat.lt_succ_of_lt hk)
    have h2 := hrange n (Nat.lt_succ_self n)
    rw [UInt8.le_iff_toNat_le, UInt8.toNat_ofNat', Nat.mod_eq_of_lt (by omega)] at h2
    exact Nat.succ_le_succ h2

/-- A page from `id` on ends with the last object, or where the first one does not fit
that is not on it. -/
theorem page_exists (c : Catalogue) {last : UInt8} {id : Nat} (hid : id ≤ last.toNat) :
    pagePtr c id (last.toNat + 1 - id) ≤ 254 ∨
      ∃ n, 0 < n ∧ id + n ≤ last.toNat ∧ pagePtr c id n ≤ 254 ∧ 254 < pagePtr c id (n + 1) := by
  by_cases hover : ∃ m, 254 < pagePtr c id m ∧ m ≤ last.toNat + 1 - id
  · right
    obtain ⟨h1, h2⟩ := Nat.find_spec hover
    have hmin := @Nat.find_min _ _ hover
    generalize Nat.find hover = m at h1 h2 hmin
    -- The first two values of `ptr` are too small.
    have hm : 1 < m := by
      have h3 := pagePtr_succ_le c id 0
      rcases m with _ | _ | m
      · exact absurd h1 (show ¬ 254 < 8 by decide)
      · rw [pagePtr] at h3
        omega
      · omega
    obtain ⟨n, rfl⟩ : ∃ n, m = n + 1 := ⟨m - 1, by omega⟩
    refine ⟨n, by omega, by omega, ?_, h1⟩
    refine Nat.le_of_not_lt fun h3 => hmin (Nat.lt_succ_self n) ⟨h3, by omega⟩
  · left
    exact Nat.le_of_not_lt fun h1 => hover ⟨_, h1, Nat.le_refl _⟩

theorem break_object {c : Catalogue} {id n : Nat} (h1 : pagePtr c id n ≤ 254)
    (h2 : 254 < pagePtr c id (n + 1)) :
    ∃ data, c.object (UInt8.ofNat (id + n)) = some data ∧ 252 < pagePtr c id n + data.length := by
  cases h : c.object (UInt8.ofNat (id + n)) with
  | none =>
    rw [pagePtr_none h] at h2
    exact absurd h2 (Nat.not_lt_of_le h1)
  | some data =>
    rw [pagePtr_some h] at h2
    exact ⟨data, rfl, by omega⟩

/-- The objects that are on a page come to it cleanly. -/
theorem clean_on_page {c : Catalogue} {last : UInt8} {id n : Nat} (hid : id < last.toNat)
    (hstart : Start c id) (hroom : pagePtr c id n ≤ 254) {k : Nat} (hk : id ≤ k)
    (hkn : k < id + n) {data : List UInt8} (hd : c.object (UInt8.ofNat k) = some data) :
    position c k ≤ 252 ∧ (k = last.toNat → position c k + data.length ≤ 252) := by
  obtain ⟨j, rfl⟩ := Nat.exists_eq_add_of_le hk
  rcases Nat.eq_zero_or_pos j with rfl | h0
  · refine ⟨?_, fun h1 => absurd h1 (Nat.ne_of_lt hid)⟩
    rcases hstart with rfl | ⟨_, _, h1, _⟩
    · exact show 8 ≤ 252 by decide
    · exact h1
  · have h1 : pagePtr c id (j + 1) ≤ 254 :=
      Nat.le_trans (pagePtr_mono c id (Nat.lt_of_add_lt_add_left hkn)) hroom
    rw [pagePtr_some hd] at h1
    rw [position_page hstart h0 (by omega)]
    omega

end PagingLemmas

open PagingLemmas

/-! ## 2. Access codes with an end -/

/-- A client gets all objects, when the pages end cleanly. -/
theorem paging_of_clean {c : Catalogue} {last : UInt8} (hlast : last.toNat < 255)
    (hclean : PagesCleanly c last) {id : Nat} (hid : id ≤ last.toNat) (hstart : Start c id) :
    ∃ pages, Paging c last id pages ∧
      pages.flatMap Page.objects = objectsFrom c id (last.toNat + 1 - id) ∧
      ∀ page ∈ pages, page.count.toNat = page.objects.length := by
  induction hk : last.toNat - id using Nat.strong_induction_on generalizing id with
  | _ k ih =>
    subst hk
    rcases page_exists c hid with hroom | ⟨n, h0, hn, hroom, hover⟩
    · have hgt : last < UInt8.ofNat (id + (last.toNat + 1 - id)) := by
        rw [UInt8.lt_iff_toNat_lt, UInt8.toNat_ofNat', Nat.mod_eq_of_lt (by omega)]
        omega
      have hend : PageEnds c last id (last.toNat + 1 - id) :=
        ⟨fun k hk => ofNat_le (by omega), hroom, .inr hgt⟩
      refine ⟨_, .last hend (UInt8.le_of_lt hgt), ?_, ?_⟩
      · rw [List.flatMap_singleton, pageOf_objects]
      · intro page hpage
        rw [List.mem_singleton.mp hpage]
        exact pageOf_count_toNat hend _
    · -- The page breaks before object `id + n`, and the next one starts with it.
      obtain ⟨data, hd, hlen⟩ := break_object hroom hover
      have hpos := position_page hstart h0 hroom
      obtain ⟨h1, h2⟩ := hclean (id + n) hn data hd
      rw [hpos] at h1 h2
      have hend : PageEnds c last id n :=
        ⟨fun k hk => ofNat_le (by omega), hroom, .inl ⟨ofNat_le hn, h1, hover⟩⟩
      have hlt : id + n < last.toNat := by
        refine Nat.lt_of_le_of_ne hn fun h3 => ?_
        exact absurd (h2 h3) (Nat.not_le_of_lt hlen)
      have hnext : Start c (id + n) := .inr ⟨data, hd, by rwa [hpos], by rwa [hpos]⟩
      obtain ⟨pages, hpages, hobjects, hcounts⟩ :=
        @ih (last.toNat - (id + n)) (by omega) (id + n) hn hnext rfl
      refine ⟨_, .more hend (ofNat_lt hlt) hpages, ?_, ?_⟩
      · rw [List.flatMap_cons, pageOf_objects, hobjects, ← objectsFrom_add]
        congr 1
        omega
      · intro page hpage
        rcases List.mem_cons.mp hpage with rfl | hpage
        · exact pageOf_count_toNat hend _
        · exact hcounts page hpage

/-- Where a client gets all objects, the pages end cleanly. -/
theorem clean_of_paging {c : Catalogue} {last : UInt8} (hlast : last.toNat < 255) {id : Nat}
    {pages : List Page} (hpages : Paging c last id pages) (hid : id < last.toNat)
    (hstart : Start c id)
    (hall : pages.flatMap Page.objects = objectsFrom c id (last.toNat + 1 - id)) :
    ∀ k, id ≤ k → k ≤ last.toNat → ∀ data, c.object (UInt8.ofNat k) = some data →
      position c k ≤ 252 ∧ (k = last.toNat → position c k + data.length ≤ 252) := by
  induction hpages with
  | @last id n hn hle =>
    intro k hk hklast data hd
    have hend := page_le hlast (Nat.le_of_lt hid) hn.in_range
    rcases Nat.lt_or_ge k (id + n) with h1 | h1
    · exact clean_on_page hid hstart hn.room hk h1 hd
    · -- The loop was broken at the last object, which the client does not get.
      rw [UInt8.le_iff_toNat_le, UInt8.toNat_ofNat', Nat.mod_eq_of_lt (by omega)] at hle
      have hlen : last.toNat + 1 - id = n + 1 := by omega
      obtain rfl : k = id + n := by omega
      rw [List.flatMap_singleton, pageOf_objects, hlen, objectsFrom_succ, found_some hd] at hall
      have h2 := congrArg List.length hall
      rw [List.length_append, List.length_singleton] at h2
      omega
  | @more id n pages hn hlt _ ih =>
    intro k hk hklast data hd
    have hend := page_le hlast (Nat.le_of_lt hid) hn.in_range
    rcases Nat.lt_or_ge k (id + n) with h1 | h1
    · exact clean_on_page hid hstart hn.room hk h1 hd
    · obtain ⟨-, h2, hover⟩ := hn.ends.resolve_right fun h2 => UInt8.lt_asymm h2 hlt
      obtain ⟨data', hd', hlen⟩ := break_object hn.room hover
      have h0 : 0 < n := by
        rcases Nat.eq_zero_or_pos n with rfl | h0
        · have h3 := pagePtr_succ_le c id 0
          rw [pagePtr] at h3
          omega
        · exact h0
      rw [UInt8.lt_iff_toNat_lt, UInt8.toNat_ofNat', Nat.mod_eq_of_lt (by omega)] at hlt
      have hpos := position_page hstart h0 hn.room
      refine ih hlt (.inr ⟨data', hd', by rwa [hpos], by rwa [hpos]⟩) ?_ k h1 hklast data hd
      have hsplit : last.toNat + 1 - id = n + (last.toNat + 1 - (id + n)) := by omega
      rw [List.flatMap_cons, pageOf_objects, hsplit, objectsFrom_add] at hall
      exact List.append_cancel_left hall

/-! ## 3. The access code without an end -/

namespace PagingLemmas

theorem paging_last {c : Catalogue} {last : UInt8} {id : Nat} {pages : List Page}
    (hpages : Paging c last id pages) :
    ∃ id' n before, PageEnds c last id' n ∧ last ≤ UInt8.ofNat (id' + n) ∧
      pages.flatMap Page.objects = before ++ objectsFrom c id' n := by
  induction hpages with
  | @last id n hn hle =>
    exact ⟨id, n, [], hn, hle, by rw [List.flatMap_singleton, pageOf_objects, List.nil_append]⟩
  | @more id n pages hn hlt _ ih =>
    obtain ⟨id', n', before, hn', hle, hobjects⟩ := ih
    refine ⟨id', n', objectsFrom c id n ++ before, hn', hle, ?_⟩
    rw [List.flatMap_cons, pageOf_objects, hobjects, List.append_assoc]

theorem objectsFrom_congr (c : Catalogue) {i j : Nat} (h : UInt8.ofNat i = UInt8.ofNat j)
    (n : Nat) : objectsFrom c i n = objectsFrom c j n := by
  induction n with
  | zero => rfl
  | succ n ih => rw [objectsFrom_succ, objectsFrom_succ, ih, UInt8.ofNat_add, UInt8.ofNat_add, h]

theorem id_of_mem {c : Catalogue} {id n : Nat} {object : UInt8 × List UInt8}
    (h : object ∈ objectsFrom c id n) : ∃ k < n, object.1 = UInt8.ofNat (id + k) := by
  obtain ⟨i, hi, h1⟩ := List.mem_filterMap.mp h
  obtain ⟨data, -, rfl⟩ := Option.map_eq_some_iff.mp h1
  obtain ⟨k, hk, rfl⟩ := List.mem_range'.mp hi
  exact ⟨k, hk, by rw [Nat.one_mul]⟩

theorem ofNat_eq_iff (i j : Nat) : UInt8.ofNat i = UInt8.ofNat j ↔ i % 256 = j % 256 := by
  rw [← UInt8.toNat_inj, UInt8.toNat_ofNat', UInt8.toNat_ofNat']

theorem objectsFrom_all {c : Catalogue} {data : List UInt8} (hd : c.object 0xff = some data) :
    objectsFrom c 0 256 = objectsFrom c 0 255 ++ [(0xff, data)] := by
  have h1 : UInt8.ofNat (0 + 255) = 0xff := rfl
  rw [objectsFrom_succ, h1, found_some hd]

theorem objectsFrom_round {c : Catalogue} {i : Nat} (hi : i % 256 = 255) {data : List UInt8}
    (hd : c.object 0xff = some data) :
    objectsFrom c i 256 = (0xff, data) :: objectsFrom c 0 255 := by
  have h1 : objectsFrom c 255 1 = [(0xff, data)] := by
    rw [objectsFrom_succ, Nat.add_zero, show UInt8.ofNat 255 = 0xff from rfl, found_some hd]
    rfl
  rw [objectsFrom_congr c ((ofNat_eq_iff i 255).mpr hi), show 256 = 1 + 255 from rfl,
    objectsFrom_add, h1, objectsFrom_congr c ((ofNat_eq_iff (255 + 1) 0).mpr rfl)]
  rfl

/-- A page that stops at id 0xff and holds its object has come to this id before. -/
theorem round_of_mem {c : Catalogue} {id n : Nat} {data : List UInt8} (hn : (id + n) % 256 = 255)
    (h : (0xff, data) ∈ objectsFrom c id n) : 256 ≤ n := by
  obtain ⟨k, hk, h1⟩ := id_of_mem h
  have h2 := (ofNat_eq_iff 255 (id + k)).mp h1
  omega

theorem not_mem_objectsFrom (c : Catalogue) (data : List UInt8) :
    (0xff, data) ∉ objectsFrom c 0 255 := by
  intro h
  obtain ⟨k, hk, h1⟩ := id_of_mem h
  have h2 := (ofNat_eq_iff 255 (0 + k)).mp h1
  omega

end PagingLemmas

/-- The loop up to id 0xff is only left where object 0xff does not fit. A page whose
objects end with 0xff and that is left there has gone once through all ids: then there
is no other object, and 0xff alone does fit. -/
theorem paging_never_complete (c : Catalogue) {pages : List Page}
    (hpages : Paging c 0xff 0 pages) : pages.flatMap Page.objects ≠ objectsFrom c 0 256 := by
  intro hall
  obtain ⟨id, n, before, hn, hle, hobjects⟩ := paging_last hpages
  rw [UInt8.le_iff_toNat_le, UInt8.toNat_ofNat'] at hle
  have hn255 : (id + n) % 256 = 255 :=
    Nat.le_antisymm (Nat.le_of_lt_succ (Nat.mod_lt _ (by decide))) hle
  obtain ⟨-, hle252, hover⟩ := hn.ends.resolve_right fun h => by
    rw [UInt8.lt_iff_toNat_lt, UInt8.toNat_ofNat', hn255] at h
    exact Nat.lt_irrefl _ h
  obtain ⟨data, hd, -⟩ := break_object hn.room hover
  rw [(ofNat_eq_iff (id + n) 255).mpr hn255] at hd
  have hlen : 3 ≤ (objectsFrom c id n).length := by
    have h1 := (pagePtr_bounds c id n).2
    have h2 := pagePtr_succ_le c id n
    omega
  rw [hall, objectsFrom_all hd] at hobjects
  have hround : 256 ≤ n := by
    have hlast := congrArg List.getLast? hobjects
    rw [List.getLast?_concat, List.getLast?_append_of_ne_nil _ (List.ne_nil_of_length_pos
      (Nat.lt_of_lt_of_le (by decide) hlen))] at hlast
    exact round_of_mem hn255 (List.mem_of_getLast? hlast.symm)
  obtain ⟨m, rfl⟩ := Nat.exists_eq_add_of_le' hround
  rw [objectsFrom_add, objectsFrom_round (by omega) hd] at hobjects hlen
  -- The page has all objects, so there is none before it and none twice on it.
  have hempty : before = [] ∧ objectsFrom c id m = [] := by
    have h1 := congrArg List.length hobjects
    simp only [List.length_append, List.length_cons, List.length_nil] at h1
    exact ⟨List.eq_nil_of_length_eq_zero (by omega), List.eq_nil_of_length_eq_zero (by omega)⟩
  rw [hempty.2, List.nil_append] at hlen
  rw [hempty.1, hempty.2, List.nil_append, List.nil_append] at hobjects
  -- Its first object is 0xff. If there were a second one it would come before it.
  cases hrest : objectsFrom c 0 255 with
  | nil =>
    rw [hrest] at hlen
    exact absurd hlen (show ¬ 3 ≤ 1 by decide)
  | cons object objects =>
    have hfirst := hobjects
    rw [hrest, List.cons_append] at hfirst
    refine not_mem_objectsFrom c data ?_
    rw [hrest, ← (List.cons.inj hfirst).1]
    exact List.mem_cons_self

/-! ## 4. Main result -/

namespace PagingLemmas

theorem position_le (c : Catalogue) (k : Nat) : position c k ≤ 8 + 66 * k := by
  induction k with
  | zero => exact Nat.le_refl 8
  | succ k ih =>
    cases h : c.object (UInt8.ofNat k) with
    | none =>
      rw [position_none h]
      omega
    | some data =>
      have h1 := c.length_le _ _ h
      rw [position_some h]
      split
      · omega
      · omega

theorem basic_clean (c : Catalogue) : PagesCleanly c 2 := by
  intro k hk data hd
  have h1 := c.length_le _ _ hd
  have h2 := position_le c k
  have h3 : k ≤ 2 := hk
  omega

theorem complete_iff {h : Handler σ} {c : Catalogue} (hserves : Serves h c) {code last : UInt8}
    (hcode : lastObjectId code = some last) (s : PrModbus σ) :
    PagesComplete h code last c s ↔ ∃ pages, Paging c last 0 pages ∧
      pages.flatMap Page.objects = objectsFrom c 0 (last.toNat + 1) ∧
      ∀ page ∈ pages, page.count.toNat = page.objects.length := by
  have h0 : UInt8.ofNat 0 ≤ last := ofNat_le (Nat.zero_le _)
  constructor
  · rintro ⟨pages, hex, hobjects⟩
    exact ⟨pages, exchange_paging hserves hcode hex 0 rfl h0, hobjects⟩
  · rintro ⟨pages, hpages, hobjects⟩
    exact ⟨pages, paging_exchange hserves hcode hpages h0 s, hobjects⟩

end PagingLemmas

/-- A client gets all objects up to the last one of an access code exactly if the
code is 1, or it is 2 and the pages end cleanly. -/
theorem paging_complete_iff {h : Handler σ} {c : Catalogue} (hserves : Serves h c)
    {code last : UInt8} (hcode : lastObjectId code = some last) (s : PrModbus σ) :
    PagesComplete h code last c s ↔ code = 1 ∨ code = 2 ∧ PagesCleanly c last := by
  rw [complete_iff hserves hcode]
  have hclean (hlast : last.toNat < 255) (h0 : 0 < last.toNat) :
      (∃ pages, Paging c last 0 pages ∧
        pages.flatMap Page.objects = objectsFrom c 0 (last.toNat + 1) ∧
        ∀ page ∈ pages, page.count.toNat = page.objects.length) ↔ PagesCleanly c last := by
    constructor
    · rintro ⟨pages, hpages, hobjects, -⟩ k hk data hd
      exact clean_of_paging hlast hpages h0 (.inl rfl) hobjects k (Nat.zero_le k) hk data hd
    · intro hc
      exact paging_of_clean hlast hc (Nat.zero_le _) (.inl rfl)
  unfold lastObjectId at hcode
  split at hcode
  · rename_i h1
    cases hcode
    exact iff_of_true ((hclean (by decide) (by decide)).mpr (basic_clean c)) (.inl h1)
  split at hcode
  · rename_i h1 h2
    cases hcode
    rw [hclean (by decide) (by decide)]
    exact ⟨fun h3 => .inr ⟨h2, h3⟩, fun h3 => (h3.resolve_left h1).2⟩
  split at hcode
  · rename_i h1 h2 h3
    cases hcode
    refine iff_of_false ?_ (not_or.mpr ⟨h1, fun h4 => h2 h4.1⟩)
    rintro ⟨pages, hpages, hobjects, -⟩
    exact paging_never_complete c hpages hobjects
  · cases hcode

namespace PagingLemmas

/-- Three strings of 64 bytes, and one more as object 0x7f. -/
def longCatalogue : Catalogue where
  object id := if id < 3 ∨ id = 0x7f then some (List.replicate 0x40 0x41) else none
  length_pos id data h := by
    split at h
    · cases h
      decide
    · cases h
  length_le id data h := by
    split at h
    · cases h
      decide
    · cases h

def vendorName : Catalogue where
  object id := if id = 0 then some [0x70, 0x69] else none
  length_pos id data h := by
    split at h
    · cases h
      decide
    · cases h
  length_le id data h := by
    split at h
    · cases h
      decide
    · cases h

def fiveStrings : Catalogue where
  object id := if id < 5 then some (List.replicate 0x40 0x41) else none
  length_pos id data h := by
    split at h
    · cases h
      decide
    · cases h
  length_le id data h := by
    split at h
    · cases h
      decide
    · cases h

theorem fiveStrings_clean : PagesCleanly fiveStrings 0x7f := by
  have hposition : ∀ k < 5, position fiveStrings k ≤ 252 := by decide +kernel
  intro k hk data hd
  have hk : k ≤ 127 := hk
  have hlt : k < 5 := by
    by_contra hge
    have hid : ¬ UInt8.ofNat k < 5 := by
      rw [UInt8.lt_iff_toNat_lt, UInt8.toNat_ofNat', Nat.mod_eq_of_lt (by omega)]
      exact hge
    have hnone : fiveStrings.object (UInt8.ofNat k) = none := if_neg hid
    rw [hnone] at hd
    cases hd
  refine ⟨hposition k hlt, fun heq => ?_⟩
  have heq : k = 127 := heq
  omega

/-- The handler that looks objects up in a catalogue. -/
def lookup (c : Catalogue) : Handler Unit :=
  ⟨none, none, none, none, none, none, some fun app id => (c.object id, app)⟩

theorem lookup_serves (c : Catalogue) : Serves (lookup c) c := fun _ _ => rfl

def started : PrModbus Unit := ⟨1, fun _ => 0, 0, 0, (), []⟩

end PagingLemmas

open PagingLemmas in
/-- The first page has room for three of the five strings, and the client gets the other two on a
second one. -/
theorem paging_complete_iff_fiveStrings :
    Serves (lookup fiveStrings) fiveStrings ∧ lastObjectId 2 = some 0x7f ∧
    position fiveStrings 3 = 206 ∧ position fiveStrings 4 = 74 ∧
    (objectsFrom fiveStrings 0 0x80).length = 5 ∧
    PagesComplete (lookup fiveStrings) 2 0x7f fiveStrings started := by
  refine ⟨lookup_serves _, rfl, by decide +kernel, by decide +kernel, by decide +kernel, ?_⟩
  exact (paging_complete_iff (lookup_serves _) rfl started).mpr (.inr ⟨rfl, fiveStrings_clean⟩)

open PagingLemmas in
/-- Object 0x7f does not fit behind the three others. Next is then 0x7f, which is taken for the end,
and the client never gets the object. With access code 3 the loop goes on from object 0xff to
object 0: every response is filled with copies of the only object, and says that there is more from
object 0 on. -/
theorem paging_incomplete :
    ¬ PagesComplete (lookup longCatalogue) 2 0x7f longCatalogue started ∧
    ¬ PagesComplete (lookup vendorName) 3 0xff vendorName started := by
  constructor
  · rw [complete_iff (lookup_serves _) rfl]
    rintro ⟨pages, hpages, hobjects, -⟩
    have h1 := clean_of_paging (by decide) hpages (by decide) (.inl rfl) hobjects 0x7f (by decide)
      (by decide) (List.replicate 0x40 0x41) rfl
    have h2 : position longCatalogue 0x7f = 206 := by decide +kernel
    rw [h2] at h1
    exact absurd (h1.2 rfl) (by decide)
  · rw [complete_iff (lookup_serves _) rfl]
    rintro ⟨pages, hpages, hobjects, -⟩
    exact paging_never_complete vendorName hpages hobjects

end Picore.Modbus
