/-
  RfqSettlement.Core.Departures

  Which quotes a command takes off the book, and what it tells their makers.

  `Ledger.Parts` is the exact account of a commit phase: the quotes that leave, each
  with its one notice, and the quotes that are won.  `releaseLeg_parts`,
  `acceptLegs_parts` and `rejectLegs_parts` are it for the three loops over a leg's
  quotes.
-/

import RfqSettlement.Core.Inheritance

namespace RfqSettlement

-- ============================================================================
-- Notices
-- ============================================================================

/-- The quote a notice is about, and the maker it is for. -/
def Event.fate : Event → Option (QuoteIdx × Nat)
  | .quoteRejected q maker _ | .quoteExpired q maker => some (q, maker)
  | _ => none

/-- What the maker of a quote leaving its leg at `now` is told. -/
def Offer.notice (o : Offer) (now : Nat) (reason : QuoteRejectReason) (q : QuoteIdx) : Event :=
  if o.state = .active ∧ now < o.expiresAt then .quoteRejected q o.maker reason
  else .quoteExpired q o.maker

theorem Offer.fate_notice (o : Offer) (now : Nat) (reason : QuoteRejectReason) (q : QuoteIdx) :
    (o.notice now reason q).fate = some (q, o.maker) := by
  unfold Offer.notice
  split <;> rfl

theorem Quote.notice_offer (x : Quote) (now : Nat) (reason : QuoteRejectReason) (q : QuoteIdx) :
    x.offer.notice now reason q =
      if x.isLiveAt now then .quoteRejected q x.maker reason else .quoteExpired q x.maker := by
  unfold Offer.notice Quote.isLiveAt
  simp only [decide_eq_true_eq]
  rfl

namespace EventBuffer

/-- `b'` is `b` with `new` added, if it has the room. -/
structure Tells (new : List Event) (b b' : EventBuffer) : Prop where
  capacity : b'.capacity = b.capacity
  events : b.events.length + new.length ≤ b.capacity → b'.events = b.events ++ new

variable {b b' b'' : EventBuffer} {new new' : List Event} {event : Event}

theorem Tells.refl (b : EventBuffer) : Tells [] b b := ⟨rfl, by simp⟩

theorem Tells.trans (h : Tells new b b') (h' : Tells new' b' b'') : Tells (new ++ new') b b'' := by
  refine ⟨h'.capacity.trans h.capacity, fun hroom => ?_⟩
  rw [List.length_append] at hroom
  have hb := h.events (by omega)
  have hb' := h'.events (by rw [hb, h.capacity, List.length_append]; omega)
  rw [hb', hb, List.append_assoc]

theorem tells_push : Tells [event] b (b.push event) := by
  refine ⟨capacity_push, fun hroom => ?_⟩
  rw [List.length_singleton] at hroom
  rw [push_of_room (by omega)]

end EventBuffer

namespace Market

variable {m m' m'' : Market} {gone gone' : List (QuoteIdx × Offer)} {won won' : List QuoteIdx}
  {q : QuoteIdx} {o : Offer}

/-- `m'` is `m` without the offers `gone`, and with the offers `won` consumed. -/
structure Sheds (gone : List (QuoteIdx × Offer)) (won : List QuoteIdx) (m m' : Market) : Prop where
  nodup : (gone.map Prod.fst).Nodup
  stored : ∀ v ∈ gone, m.offers v.1 = some v.2
  winners : ∀ q ∈ won, q ∉ gone.map Prod.fst ∧ ∃ o, m.offers q = some o ∧ o.state = .active
  offers : ∀ q, m'.offers q =
    if q ∈ gone.map Prod.fst then none
    else if q ∈ won then (m.offers q).map Offer.consume else m.offers q

theorem Sheds.of_offers (h : m'.offers = m.offers) : Sheds [] [] m m' :=
  ⟨List.nodup_nil, by simp, by simp, by simp [h]⟩

theorem Sheds.refl (m : Market) : Sheds [] [] m m := .of_offers rfl

/-- Only the offers of the market afterwards count. -/
theorem Sheds.congr (h : Sheds gone won m m') (heq : m''.offers = m'.offers) :
    Sheds gone won m m'' :=
  ⟨h.nodup, h.stored, h.winners, by rw [heq]; exact h.offers⟩

/-- What stands active afterwards neither left nor was won. -/
theorem Sheds.kept (h : Sheds gone won m m') (ho : m'.offers q = some o)
    (hactive : o.state = .active) :
    q ∉ gone.map Prod.fst ∧ q ∉ won ∧ m.offers q = some o := by
  rw [h.offers] at ho
  split at ho
  · cases ho
  next hstays =>
  split at ho
  next hwon =>
    obtain ⟨o', -, rfl⟩ := Option.map_eq_some_iff.mp ho
    cases hactive
  next hlost => exact ⟨hstays, hlost, ho⟩

theorem Sheds.trans (h : Sheds gone won m m') (h' : Sheds gone' won' m' m'')
    (hactive' : ∀ v ∈ gone', v.2.state = .active) :
    Sheds (gone ++ gone') (won ++ won') m m'' where
  nodup := by
    rw [List.map_append, List.nodup_append]
    refine ⟨h.nodup, h'.nodup, ?_⟩
    rintro q hq _ hq' rfl
    obtain ⟨v, hv, rfl⟩ := List.mem_map.mp hq'
    exact (h.kept (h'.stored v hv) (hactive' v hv)).1 hq
  stored v hv := by
    rcases List.mem_append.mp hv with hv | hv
    · exact h.stored v hv
    · exact (h.kept (h'.stored v hv) (hactive' v hv)).2.2
  winners q hq := by
    rw [List.map_append, List.mem_append, not_or]
    rcases List.mem_append.mp hq with hq | hq
    · obtain ⟨hstays, hstored⟩ := h.winners q hq
      refine ⟨⟨hstays, fun hgone => ?_⟩, hstored⟩
      obtain ⟨v, hv, rfl⟩ := List.mem_map.mp hgone
      exact (h.kept (h'.stored v hv) (hactive' v hv)).2.1 hq
    · obtain ⟨hstays, o, ho, hactive⟩ := h'.winners q hq
      obtain ⟨hstayed, -, ho⟩ := h.kept ho hactive
      exact ⟨⟨hstayed, hstays⟩, o, ho, hactive⟩
  offers q := by
    rw [h'.offers, h.offers]
    simp only [List.map_append, List.mem_append]
    by_cases hgone : q ∈ gone.map Prod.fst
    · simp [hgone]
    by_cases hgone' : q ∈ gone'.map Prod.fst
    · simp [hgone']
    by_cases hwon : q ∈ won <;> by_cases hwon' : q ∈ won'
    · obtain ⟨-, o, ho, hactive⟩ := h'.winners q hwon'
      exact absurd hwon (h.kept ho hactive).2.1
    all_goals simp [hgone, hgone', hwon, hwon']

end Market

namespace Ledger

open EventBuffer (Tells)

variable {w w' w'' : Work} {max now i n : Nat} {filled : Option ReqIdx} {r : ReqIdx} {q : QuoteIdx}
  {o : Offer} {a : Auction} {reason : QuoteRejectReason} {gone gone' : List (QuoteIdx × Offer)}
  {won won' : List QuoteIdx} {fills : List Fill} {f : Fill} {scope : Scope}

/-- `w'` is `w` with the active quotes `gone` taken off the book, each maker told once,
    and the quotes `won` consumed. -/
structure Parts (now : Nat) (reason : QuoteRejectReason) (gone : List (QuoteIdx × Offer))
    (won : List QuoteIdx) (w w' : Work) : Prop where
  sheds : Market.Sheds gone won w.1.market w'.1.market
  active : ∀ v ∈ gone, v.2.state = .active
  tells : Tells (gone.map fun v => v.2.notice now reason v.1) w.2 w'.2

theorem Parts.refl (w : Work) : Parts now reason [] [] w w := ⟨.refl _, by simp, .refl _⟩

theorem Parts.trans (h : Parts now reason gone won w w') (h' : Parts now reason gone' won' w' w'') :
    Parts now reason (gone ++ gone') (won ++ won') w w'' where
  sheds := h.sheds.trans h'.sheds h'.active
  active v hv := by
    rcases List.mem_append.mp hv with hv | hv
    · exact h.active v hv
    · exact h'.active v hv
  tells := by
    rw [List.map_append]
    exact h.tells.trans h'.tells

-- ============================================================================
-- A leg
-- ============================================================================

theorem Healthy.releaseQuotes_parts {qs : List QuoteIdx} (now : Nat) (reason : QuoteRejectReason)
    (h : w.1.Healthy max filled)
    (ha : w.1.market.auctions r = some a) (hopened : a.state = .opened) (hi : i < a.legs.length)
    (hnodup : qs.Nodup) (hqs : ∀ q ∈ qs, ∃ o, OnLeg w.1.market r i q o) :
    ∃ gone, gone.map Prod.fst = qs ∧
      Parts now reason gone [] w (qs.foldl (fun w q => w.releaseQuote r i now reason q) w) := by
  induction qs generalizing w with
  | nil => exact ⟨[], rfl, .refl w⟩
  | cons q qs ih =>
      obtain ⟨hnot, hnodup⟩ := List.nodup_cons.mp hnodup
      obtain ⟨o, ho⟩ := hqs q (by simp)
      have hscope : (Scope.replacing q).Withdraws q o := rfl
      have hclears : Clears max filled (.replacing q) now [q] w (w.releaseQuote r i now reason q) :=
        h.releaseQuotes ha hopened hi (List.nodup_singleton q) fun q' hq' => by
          obtain rfl := List.mem_singleton.mp hq'
          exact ⟨o, ho, hscope⟩
      have htells : Tells [o.notice now reason q] w.2 (w.releaseQuote r i now reason q).2 := by
        obtain ⟨x, hx, rfl⟩ := quote_of_market ho.offer
        have hevents : (w.releaseQuote r i now reason q).2 =
            w.2.push (x.offer.notice now reason q) := by
          rw [Quote.notice_offer]
          simp only [Work.releaseQuote, hx]
        rw [hevents]
        exact EventBuffer.tells_push
      have hone : Parts now reason [(q, o)] [] w (w.releaseQuote r i now reason q) := by
        refine ⟨⟨List.nodup_singleton q, ?_, by simp, fun q' => ?_⟩, ?_, htells⟩
        · intro v hv
          obtain rfl := List.mem_singleton.mp hv
          exact ho.offer
        · rw [hclears.offers]
          simp
        · intro v hv
          obtain rfl := List.mem_singleton.mp hv
          exact ho.active
      obtain ⟨gone, hgone, hrest⟩ := ih hclears.healthy (by rw [hclears.auctions]; exact ha) hnodup
        fun q' hq' => by
          obtain ⟨o', ho'⟩ := hqs q' (by simp [hq'])
          have hne : q' ≠ q := fun heq => hnot (heq ▸ hq')
          refine ⟨o', ?_, ho'.request, ho'.leg, ho'.active⟩
          rw [hclears.offers, if_neg (by simpa using hne)]
          exact ho'.offer
      exact ⟨(q, o) :: gone, by simp [hgone], hone.trans hrest⟩

/-- Releasing a leg: every quote on it but the one kept leaves, and its maker is told. -/
theorem Healthy.releaseLeg_parts (now : Nat) (keep : Option Selection) (reason : QuoteRejectReason)
    (h : w.1.Healthy max filled) (hmax : max ≤ MAX_QUOTES_PER_LEG)
    (ha : w.1.market.auctions r = some a) (hopened : a.state = .opened) (hi : i < a.legs.length)
    (hactive : ∀ q o, w.1.market.offers q = some o → o.request = r → o.leg = i →
      o.state = .active) :
    ∃ gone, Parts now reason gone [] w (w.releaseLeg r i keep now reason) ∧ gone.length ≤ max ∧
      ∀ q, q ∈ gone.map Prod.fst ↔
        (∃ o, OnLeg w.1.market r i q o) ∧ ∀ s, keep = some s → s.quote ≠ q := by
  obtain ⟨qs, heq, hnodup, hlen, hmem⟩ := h.releaseLeg_eq now keep reason hmax ha hopened hi hactive
  obtain ⟨gone, rfl, hparts⟩ := h.releaseQuotes_parts now reason ha hopened hi hnodup
    fun q hq => ((hmem q).mp hq).1
  rw [List.length_map] at hlen
  exact ⟨gone, heq ▸ hparts, hlen, hmem⟩

-- ============================================================================
-- All legs of a request
-- ============================================================================

/-- One leg of an accept: the losers leave, the winner is consumed. -/
theorem Healthy.acceptLeg_parts (now : Nat) (h : w.1.Healthy max (some r))
    (hmax : max ≤ MAX_QUOTES_PER_LEG) (ha : w.1.market.auctions r = some a)
    (hopened : a.state = .opened) (hfit : Fits w.1.market r a i f)
    (hactive : ∀ q o, w.1.market.offers q = some o → o.request = r → i ≤ o.leg →
      o.state = .active) :
    ∃ gone, Parts now .outbid gone [f.quote] w (Engine.acceptLeg w r i f.selection now) ∧
      gone.length ≤ max ∧
      ∀ q, q ∈ gone.map Prod.fst ↔ (∃ o, OnLeg w.1.market r i q o) ∧ q ≠ f.quote := by
  have hi : i < a.legs.length := (List.getElem?_eq_some_iff.mp hfit.leg).1
  have hon : ∀ q o, w.1.market.offers q = some o → o.request = r → o.leg = i → o.state = .active :=
    fun q o ho hr hoi => hactive q o ho hr (Nat.le_of_eq hoi.symm)
  obtain ⟨gone, hparts, hlen, hmem⟩ :=
    h.releaseLeg_parts now (some f.selection) .outbid hmax ha hopened hi hon
  obtain ⟨hhealthy₁, hauctions₁⟩ :
      (w.releaseLeg r i (some f.selection) now .outbid).1.Healthy max (some r) ∧
        (w.releaseLeg r i (some f.selection) now .outbid).1.market.auctions =
          w.1.market.auctions := by
    obtain ⟨qs, hclear, -, -⟩ := h.releaseLeg (.filling r) hmax ha hopened hi
      fun q o ho hr hoi => ⟨hon q o ho hr hoi, hr⟩
    exact ⟨hclear.healthy, hclear.auctions⟩
  unfold Engine.acceptLeg
  dsimp only
  generalize w.releaseLeg r i (some f.selection) now .outbid = w₁ at hparts hhealthy₁ hauctions₁
  have hstays : f.quote ∉ gone.map Prod.fst := fun hq => ((hmem _).mp hq).2 f.selection rfl rfl
  have ho₁ : OnLeg w₁.1.market r i f.quote f.offer := by
    refine ⟨?_, hfit.onLeg.request, hfit.onLeg.leg, hfit.onLeg.active⟩
    rw [hparts.sheds.offers, if_neg hstays]
    exact hfit.onLeg.offer
  obtain ⟨held, hcons⟩ := hhealthy₁.consumeWinner (by rw [hauctions₁]; exact ha) hopened ho₁
  have hwon : Parts now .outbid [] [f.quote] w₁ (Engine.consumeWinner w₁.1 r f.selection, w₁.2) := by
    refine ⟨⟨List.nodup_nil, by simp, fun q hq => ?_, fun q => ?_⟩, by simp, .refl _⟩
    · obtain rfl := List.mem_singleton.mp hq
      exact ⟨by simp, f.offer, ho₁.offer, ho₁.active⟩
    · show (Engine.consumeWinner w₁.1 r f.selection).market.offers q = _
      rw [show f.selection = ⟨f.quote, f.offer.price⟩ from rfl, hcons.market]
      simp only [Market.setOffer, Function.update_apply, Market.offers_pledge, List.map_nil,
        List.not_mem_nil, if_false, List.mem_singleton]
      split
      next heq =>
        rw [heq, ho₁.offer]
        rfl
      next => rfl
  refine ⟨gone, by simpa using hparts.trans hwon, hlen, fun q => ?_⟩
  rw [hmem q]
  constructor
  · rintro ⟨hleg, hother⟩
    exact ⟨hleg, fun heq => hother f.selection rfl heq.symm⟩
  · rintro ⟨hleg, hne⟩
    refine ⟨hleg, fun s hs heq => hne ?_⟩
    obtain rfl := Option.some.inj hs
    exact heq.symm

/-- The legs of an accept from `i` on. -/
theorem Healthy.acceptLegs_parts (now : Nat) (h : w.1.Healthy max (some r))
    (hmax : max ≤ MAX_QUOTES_PER_LEG) (ha : w.1.market.auctions r = some a)
    (hopened : a.state = .opened)
    (hfits : ∀ j f, fills[j]? = some f → Fits w.1.market r a (i + j) f)
    (hactive : ∀ q o, w.1.market.offers q = some o → o.request = r → i ≤ o.leg →
      o.state = .active) :
    ∃ gone, Parts now .outbid gone (fills.map Fill.quote) w
        (Engine.acceptLegs r now i (fills.map Fill.selection) w) ∧
      gone.length ≤ fills.length * max ∧
      ∀ q, q ∈ gone.map Prod.fst ↔ (∃ o, w.1.market.offers q = some o ∧ o.request = r ∧
        i ≤ o.leg ∧ o.leg < i + fills.length) ∧ q ∉ fills.map Fill.quote := by
  induction fills generalizing i w with
  | nil =>
      refine ⟨[], .refl w, by simp, fun q => ?_⟩
      simp only [List.map_nil, List.not_mem_nil, false_iff, List.length_nil, not_and, Nat.add_zero]
      rintro ⟨o, -, -, hge, hlt⟩
      omega
  | cons f fills ih =>
      have hfit : Fits w.1.market r a i f := by simpa using hfits 0 f rfl
      obtain ⟨gone, hparts, hlen, hmem⟩ := h.acceptLeg_parts now hmax ha hopened hfit hactive
      have hfilled : Filled max r now max [f] w (Engine.acceptLeg w r i f.selection now) :=
        (h.acceptLeg hmax ha hopened hfit hactive).1
      have hrest : ∀ q o, o.request = r → i < o.leg →
          ((Engine.acceptLeg w r i f.selection now).1.market.offers q = some o ↔
            w.1.market.offers q = some o) := (h.acceptLeg hmax ha hopened hfit hactive).2
      have hfits' : ∀ j g, fills[j]? = some g →
          Fits (Engine.acceptLeg w r i f.selection now).1.market r a (i + 1 + j) g ∧
            g.offer.leg = i + 1 + j := by
        intro j g hg
        have hfit' := hfits (j + 1) g (by simpa using hg)
        rw [show i + (j + 1) = i + 1 + j by omega] at hfit'
        have hleg := hfit'.onLeg.leg
        exact ⟨⟨⟨(hrest _ _ hfit'.onLeg.request (by omega)).mpr hfit'.onLeg.offer,
          hfit'.onLeg.request, hleg, hfit'.onLeg.active⟩, hfit'.leg⟩, hleg⟩
      obtain ⟨gone', hparts', hlen', hmem'⟩ := ih hfilled.healthy (by rw [hfilled.auctions]; exact ha)
        (fun j g hg => (hfits' j g hg).1)
        fun q o ho hr hlt => hactive q o ((hrest q o hr (by omega)).mp ho) hr (by omega)
      -- a later winner stands on a later leg
      have hlater : ∀ q ∈ fills.map Fill.quote, ∃ o, w.1.market.offers q = some o ∧ i < o.leg := by
        intro q hq
        obtain ⟨g, hg, rfl⟩ := List.mem_map.mp hq
        obtain ⟨j, hj⟩ := List.mem_iff_getElem?.mp hg
        obtain ⟨hfit', hleg⟩ := hfits' j g hj
        exact ⟨g.offer, (hrest _ _ hfit'.onLeg.request (by omega)).mp hfit'.onLeg.offer, by omega⟩
      refine ⟨gone ++ gone', hparts.trans hparts', ?_, fun q => ?_⟩
      · rw [List.length_append, List.length_cons, Nat.succ_mul]
        omega
      rw [List.map_append, List.mem_append, hmem, hmem', List.map_cons, List.mem_cons, not_or,
        List.length_cons]
      constructor
      · rintro (⟨⟨o, ho⟩, hne⟩ | ⟨⟨o, ho, hr, hge, hlt⟩, hlost⟩)
        · have hleg := ho.leg
          refine ⟨⟨o, ho.offer, ho.request, by omega, by omega⟩, hne, fun hq => ?_⟩
          obtain ⟨o', ho', hlt⟩ := hlater q hq
          obtain rfl := Option.some.inj (ho.offer.symm.trans ho')
          omega
        · have hbefore := (hrest q o hr (by omega)).mp ho
          refine ⟨⟨o, hbefore, hr, by omega, by omega⟩, ?_, hlost⟩
          rintro rfl
          obtain rfl := Option.some.inj (hbefore.symm.trans hfit.onLeg.offer)
          have := hfit.onLeg.leg
          omega
      · rintro ⟨⟨o, ho, hr, hge, hlt⟩, hne, hlost⟩
        rcases Nat.eq_or_lt_of_le hge with heq | hlater'
        · exact .inl ⟨⟨o, ho, hr, heq.symm, hactive q o ho hr hge⟩, hne⟩
        · exact .inr ⟨⟨o, (hrest q o hr hlater').mpr ho, hr, hlater', by omega⟩, hlost⟩

/-- The first `n` legs of a reject. -/
theorem Healthy.rejectLegs_parts (now : Nat) (h : w.1.Healthy max none)
    (hmax : max ≤ MAX_QUOTES_PER_LEG) (ha : w.1.market.auctions r = some a)
    (hopened : a.state = .opened) (hn : n ≤ a.legs.length) :
    ∃ gone, Parts now .requestRejected gone [] w (Engine.rejectLegs w r n now) ∧
      gone.length ≤ n * max ∧
      ∀ q, q ∈ gone.map Prod.fst ↔ ∃ o, w.1.market.offers q = some o ∧ o.request = r ∧ o.leg < n := by
  induction n with
  | zero => exact ⟨[], .refl w, by simp, by simp⟩
  | succ n ih =>
      obtain ⟨gone, hparts, hlen, hmem⟩ := ih (by omega)
      obtain ⟨qs, hclear⟩ : ∃ qs, Clears max none (.rejecting r) now qs w
          (Engine.rejectLegs w r n now) := h.rejectLegs hmax ha hopened (by omega)
      have hlast : Engine.rejectLegs w r (n + 1) now =
          (Engine.rejectLegs w r n now).releaseLeg r n none now .requestRejected := by
        unfold Engine.rejectLegs
        rw [List.range_succ, List.foldl_append, List.foldl_cons, List.foldl_nil]
      rw [hlast]
      generalize Engine.rejectLegs w r n now = w₁ at hparts hclear
      have ha₁ : w₁.1.market.auctions r = some a := by
        rw [hclear.auctions]
        exact ha
      obtain ⟨gone', hparts', hlen', hmem'⟩ := hclear.healthy.releaseLeg_parts now none
        .requestRejected hmax ha₁ hopened (i := n) (by omega)
        fun q o ho hr _ => hclear.healthy.active_of_opened ha₁ hopened ho hr
      refine ⟨gone ++ gone', hparts.trans hparts', ?_, fun q => ?_⟩
      · rw [List.length_append, Nat.succ_mul]
        omega
      rw [List.map_append, List.mem_append, hmem, hmem']
      constructor
      · rintro (⟨o, ho, hr, hlt⟩ | ⟨⟨o, ho⟩, -⟩)
        · exact ⟨o, ho, hr, by omega⟩
        · have hleg := ho.leg
          exact ⟨o, (hparts.sheds.kept ho.offer ho.active).2.2, ho.request, by omega⟩
      · rintro ⟨o, ho, hr, hlt⟩
        by_cases hlt' : o.leg < n
        · exact .inl ⟨o, ho, hr, hlt'⟩
        · have hactive := h.active_of_opened ha hopened ho hr
          have hstays : q ∉ gone.map Prod.fst := by
            rw [hmem]
            rintro ⟨o', ho', -, hlt'⟩
            obtain rfl := Option.some.inj (ho.symm.trans ho')
            omega
          refine .inr ⟨⟨o, ?_, hr, by omega, hactive⟩, by simp⟩
          rw [hparts.sheds.offers, if_neg hstays]
          exact ho

-- ============================================================================
-- What leaves the offers alone
-- ============================================================================

variable {l : Ledger} {owner : ResOwner} {claim : Option ResIdx} {c : ResIdx}

theorem offers_modifyQuote {f : Quote → Quote} (hf : ∀ x, (f x).offer = x.offer) :
    (l.modifyQuote q f).market.offers = l.market.offers := by
  rw [Ledger.market, book_modifyQuote, Book.market_modifyQuote_of_offer hf]
  rfl

theorem offers_setOwnerClaim : (l.setOwnerClaim owner claim).market.offers = l.market.offers := by
  cases owner with
  | request r => rfl
  | quote q => exact offers_modifyQuote (f := fun x => x.setClaim claim) fun _ => rfl

theorem quotes_unlinkFromChain {account index : Nat} :
    (l.unlinkFromChain account index).quotes = l.quotes := by
  unfold unlinkFromChain
  split
  · rfl
  next prev next _ => cases prev <;> cases next <;> rfl

theorem offers_of_quotes {l' : Ledger} (h : l'.quotes = l.quotes) :
    l'.market.offers = l.market.offers := by
  funext q
  show (l'.quotes.get q).map Quote.offer = (l.quotes.get q).map Quote.offer
  rw [h]

theorem offers_release : (CommitPhase.release l c).market.offers = l.market.offers := by
  unfold CommitPhase.release
  split
  · rfl
  next reservation _ =>
  split
  · rfl
  · have hlower : ((l.unlinkFromChain reservation.account c.index).lowerReserved
        reservation.account reservation.amount).market.offers = l.market.offers :=
      offers_of_quotes quotes_unlinkFromChain
    exact Eq.trans offers_setOwnerClaim hlower

theorem offers_releaseIfHeld : (l.releaseIfHeld claim).market.offers = l.market.offers := by
  cases claim with
  | none => rfl
  | some c => exact offers_release

theorem quotes_commit {keep : Nat} : (CommitPhase.commit l c r keep).quotes = l.quotes := by
  unfold CommitPhase.commit
  split
  · rfl
  split
  · rfl
  · dsimp only
    unfold linkIntoCommittedList
    dsimp only
    split <;> exact quotes_unlinkFromChain

theorem offers_dischargeFrom {fuel : Nat} {cursor : Link} {visited : List (ResOwner × Nat)} :
    (CommitPhase.dischargeFrom l fuel cursor visited).2.market.offers = l.market.offers := by
  induction fuel generalizing l cursor visited with
  | zero => cases cursor <;> rfl
  | succ fuel ih =>
      cases cursor with
      | none => rfl
      | some index =>
          unfold CommitPhase.dischargeFrom
          split
          · rfl
          split
          · rfl
          · exact ih.trans offers_setOwnerClaim

theorem offers_dischargeCommitted :
    (CommitPhase.dischargeCommitted l r).2.market.offers = l.market.offers :=
  offers_dischargeFrom

/-- Closing takes the quote, and touches nothing but the quotes. -/
theorem closeQuote_quotes :
    CommitPhase.closeQuote l q = { l with
      quotes := (l.quotes.remove q).2
      sound := (CommitPhase.closeQuote l q).sound } := rfl

theorem quote_closeQuote {q' : QuoteIdx} :
    (CommitPhase.closeQuote l q).quote q' = if q' = q then none else l.quote q' := by
  rw [closeQuote_quotes]
  show (l.quotes.remove q).2.get q' = _
  cases hq : l.quotes.get q with
  | none =>
      rw [Slab.remove_of_stale hq]
      split
      next heq => rw [heq, hq]
      next => rfl
  | some x =>
      rw [Slab.get_remove (by simp [hq])]
      rfl

theorem quote_closeQuotes {qs : List QuoteIdx} :
    (qs.foldl CommitPhase.closeQuote l).quote q = if q ∈ qs then none else l.quote q := by
  induction qs generalizing l with
  | nil => simp
  | cons q' qs ih =>
      rw [List.foldl_cons, ih, quote_closeQuote]
      by_cases hq : q = q' <;> by_cases hmem : q ∈ qs <;> simp [hq, hmem]

theorem offers_closeQuotes {qs : List QuoteIdx} :
    (qs.foldl CommitPhase.closeQuote l).market.offers q =
      if q ∈ qs then none else l.market.offers q := by
  show ((qs.foldl CommitPhase.closeQuote l).quote q).map Quote.offer = _
  rw [quote_closeQuotes]
  split <;> rfl

-- ============================================================================
-- Rejecting and accepting
-- ============================================================================

variable {engine : Engine} {events : EventBuffer} {expected : List ExpectedFill}

/-- A reject that goes through: every quote of the request leaves. -/
theorem Healthy.rejectRequest_parts (h : engine.ledger.Healthy max none)
    (hconfig : engine.config.maxQuotesPerLeg = max) (hmax : max ≤ MAX_QUOTES_PER_LEG)
    (hok : (engine.rejectRequest r now events).1 = .ok ()) :
    ∃ y gone w', engine.rejectRequest r now events = engine.done w' ∧
      engine.ledger.request r = some y ∧ y.state = .opened ∧
      Parts now .requestRejected gone [] (engine.ledger, events) w' ∧
      events.events.length + gone.length ≤ events.capacity ∧
      ∀ q, q ∈ gone.map Prod.fst ↔ ∃ o, engine.ledger.market.offers q = some o ∧ o.request = r := by
  unfold Engine.rejectRequest at hok ⊢
  split at hok
  · cases hok
  next y hy =>
  split at hok
  · cases hok
  next hopened =>
  split at hok
  · cases hok
  next hroom =>
  have hopened : y.state = .opened := by simpa using hopened
  have ha := market_auctions hy
  have hlen : y.auction.legs.length = y.nLegs := by simp [Request.nLegs, Request.auction]
  obtain ⟨gone, hparts, hcount, hmem⟩ := Healthy.rejectLegs_parts (w := (engine.ledger, events))
    now h hmax ha hopened (Nat.le_of_eq hlen.symm)
  have hroom : events.events.length + y.nLegs * max ≤ events.capacity := by
    simpa [EventBuffer.headroom, hconfig] using hroom
  rw [hy]
  dsimp only
  rw [if_neg (by simpa using hopened), if_neg (by simpa [EventBuffer.headroom, hconfig] using hroom)]
  refine ⟨y, gone, _, rfl, rfl, hopened, ⟨hparts.sheds.congr ?_, hparts.active, hparts.tells⟩,
    by omega, fun q => ?_⟩
  · exact offers_releaseIfHeld
  · rw [hmem q]
    constructor
    · rintro ⟨o, ho, hr, -⟩
      exact ⟨o, ho, hr⟩
    · rintro ⟨o, ho, hr⟩
      obtain ⟨leg, hleg, -⟩ := h.coherent.offer q o ho
      rw [Market.legOf, hr, ha, Option.bind_some] at hleg
      exact ⟨o, ho, hr, hlen ▸ (List.getElem?_eq_some_iff.mp hleg).1⟩

/-- The commit phase of an accept: the winners are consumed and every other quote of the
    request leaves. -/
theorem Healthy.commitAccept_parts {acc : Engine.Acceptance} (h : engine.ledger.Healthy max none)
    (hconfig : engine.config.maxQuotesPerLeg = max) (hmax : max ≤ MAX_QUOTES_PER_LEG)
    (hcheck : engine.checkAccept r expected now events = .ok acc) :
    ∃ fills gone w₁, Checked engine r now events fills acc ∧
      Accepted max r now acc.record.auction acc.total (intentOf r acc) fills
        (engine.ledger, events) (engine.commitAccept r acc now events) ∧
      Parts now .outbid gone (fills.map Fill.quote) (engine.ledger, events) w₁ ∧
      (engine.commitAccept r acc now events).1.market.offers = w₁.1.market.offers ∧
      (engine.commitAccept r acc now events).2 = w₁.2.push (intentOf r acc) ∧
      events.events.length + gone.length + 1 ≤ events.capacity ∧
      ∀ q, q ∈ gone.map Prod.fst ↔
        (∃ o, engine.ledger.market.offers q = some o ∧ o.request = r) ∧
          q ∉ fills.map Fill.quote := by
  obtain ⟨fills, hc⟩ := h.checkAccept hcheck
  obtain ⟨res, hres, htotal⟩ := hc.covered
  have ha := market_auctions hc.record
  have hopened : acc.record.auction.state = .opened := hc.opened
  have hlen : fills.length = acc.record.auction.legs.length := by
    simpa using congrArg List.length hc.legs
  obtain ⟨gone, hparts, hcount, hmem⟩ := Healthy.acceptLegs_parts (w := (engine.ledger, events))
    (i := 0) now ⟨h.intact, h.chained, h.coherent.fill⟩ hmax ha hopened
    (fun j f hj => by simpa using (hc.wins j f hj).fits)
    fun q o ho hr _ => h.active_of_opened ha hopened ho hr
  have hroom : events.events.length + (fills.length * max + 1) ≤ events.capacity := by
    simpa [EventBuffer.headroom, hconfig] using hc.room
  refine ⟨fills, gone, _, hc, ?_, hparts, ?_, ?_, by omega, fun q => ?_⟩
  · exact h.commitAccept hmax hc.record hc.opened hc.claim hres htotal hc.plan
      (fun j f hj => (hc.wins j f hj).fits) (hconfig ▸ hc.room)
  · rw [← hc.plan]
    exact offers_of_quotes quotes_commit
  · rw [← hc.plan]
    rfl
  · rw [hmem q]
    constructor
    · rintro ⟨⟨o, ho, hr, -, -⟩, hlost⟩
      exact ⟨⟨o, ho, hr⟩, hlost⟩
    · rintro ⟨⟨o, ho, hr⟩, hlost⟩
      obtain ⟨leg, hleg, -⟩ := h.coherent.offer q o ho
      rw [Market.legOf, hr, ha, Option.bind_some] at hleg
      have hlt := (List.getElem?_eq_some_iff.mp hleg).1
      exact ⟨⟨o, ho, hr, Nat.zero_le _, by omega⟩, hlost⟩

/-- An accept that goes through. -/
theorem Healthy.acceptRequest_parts (h : engine.ledger.Healthy max none)
    (hconfig : engine.config.maxQuotesPerLeg = max) (hmax : max ≤ MAX_QUOTES_PER_LEG)
    (hok : (engine.acceptRequest r expected now events).1 = .ok ()) :
    ∃ acc fills gone w₁ w', engine.acceptRequest r expected now events = engine.done w' ∧
      Checked engine r now events fills acc ∧
      Accepted max r now acc.record.auction acc.total (intentOf r acc) fills
        (engine.ledger, events) w' ∧
      Parts now .outbid gone (fills.map Fill.quote) (engine.ledger, events) w₁ ∧
      w'.1.market.offers = w₁.1.market.offers ∧ w'.2 = w₁.2.push (intentOf r acc) ∧
      events.events.length + gone.length + 1 ≤ events.capacity ∧
      ∀ q, q ∈ gone.map Prod.fst ↔
        (∃ o, engine.ledger.market.offers q = some o ∧ o.request = r) ∧
          q ∉ fills.map Fill.quote := by
  unfold Engine.acceptRequest at hok ⊢
  split at hok
  · cases hok
  next acc hcheck =>
  obtain ⟨fills, gone, w₁, hparts⟩ := h.commitAccept_parts hconfig hmax hcheck
  exact ⟨acc, fills, gone, w₁, _, rfl, hparts⟩

end Ledger

end RfqSettlement
