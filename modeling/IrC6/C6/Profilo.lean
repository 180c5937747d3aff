import IrC6.Irc.Args

/-!
# The profile of a user

`profilo.ini` and `profilo_nomi.ini` list the fields of a profile and the values each may
have.  Two scripts read them at build time: `make_userinfo.awk` writes the table
`c6_userinfo`, and `make_uihash.awk` the words of the perfect hash `c6_userinfo_hash`, each
with the places where it stands.
-/

namespace IrC6
namespace C6

open Irc (downcase)

/-- `struct userinfos`; `entries` is the length of `info`. -/
structure Userinfos where
  name : List UInt8
  info : List (List UInt8)

/-- `struct values`: a field and one of its values, or a field and -1 for its name. -/
structure Values where
  id : Int
  val : Int
deriving DecidableEq

/-- `c6_userinfo`.  Fields and values are numbered in a byte, below `0xff`. -/
structure Profilo where
  fields : List Userinfos
  elms_le : fields.length ≤ 255
  entries_le : ∀ f ∈ fields, f.info.length ≤ 255

/-- `strcasecmp` gives 0, and `gperf` takes the words for one. -/
def sameWord (v w : List UInt8) : Bool := v.map downcase = w.map downcase

/-! ## The words of the hash -/

/-- The lines of `profilo.ini` for one field. -/
def valueLines (f : Userinfos × Nat) : List (List UInt8 × Values) :=
  f.1.info.zipIdx.map fun w => (w.1, ⟨f.2, w.2⟩)

/-- The line of `profilo_nomi.ini` for one field. -/
def nameLine (f : Userinfos × Nat) : List UInt8 × Values := (f.1.name, ⟨f.2, -1⟩)

/-- The lines that `make_uihash.awk` reads: the values of all fields and then the names,
without the empty ones. -/
def Profilo.lines (p : Profilo) : List (List UInt8 × Values) :=
  (p.fields.zipIdx.flatMap valueLines ++ p.fields.zipIdx.map nameLine).filter (·.1 ≠ [])

/-- `c6_userinfo_hash`: the places of a word, in the order of the lines.  No two words of
`profilo.ini` differ only in case. -/
def c6UserinfoHash (p : Profilo) (word : List UInt8) : Option (List Values) :=
  match (p.lines.filter (sameWord word ·.1)).map Prod.snd with
  | [] => none
  | v => some v

/-! ## `profilo.ini` -/

def profiloIni : List (String × List String) := [
  ("Et\xe0", ["----------", "non definita", "meno di 14 anni", "da 14 a 18 anni",
    "da 19 a 27 anni", "da 28 a 35 anni", "da 36 a 45 anni", "da 45 a 65 anni", "da 65 a 85 anni",
    "da 85 a 130 anni", "da 130 a 200 anni", "da 200 a 500 anni", "oltre i 500 anni"]),
  ("Genere", ["----------", "non definito", "maschile", "femminile"]),
  ("Orientamento", ["----------", "----------", "", "omosessuale", "entrambi"]),
  ("Occupazione", ["----------", "non definita", "agente di commercio", "analista/programmatore",
    "architetto", "artigiano/a", "avvocato", "bancario/a", "commercialista", "commerciante",
    "casalingo/a", "dirigente", "disoccupato/a", "fotografo/a", "giornalista", "grafico/a",
    "impiegato/a", "imprenditore/trice", "infermiere/a", "ingegnere", "insegnante", "medico",
    "musicista", "notaio", "operaio/a", "operatore turistico", "pensionato/a",
    "procuratore legale", "pubblicitario/a", "ricercatore/trice", "studente/essa", "altra",
    "agente immobiliare", "quadro/funzionario", "farmacista", "istruttore sportivo", "suora",
    "prete", "filosofo/a"]),
  ("Paese", ["----------", "non definita", "Italia", "Vaticano", "rep. di S.Marino", "Europa",
    "Africa", "America del nord", "America latina", "Asia", "Australia e Nuova Zelanda"]),
  ("Provincia", ["----------", "non definita", "Abruzzo", "Basilicata", "Calabria", "Campania",
    "Emilia Romagna", "Friuli-Venezia Giulia", "Lazio", "Liguria", "Lombardia", "Marche",
    "Molise", "Piemonte", "Puglia", "Sardegna", "Sicilia", "Toscana", "Trentino-Alto Adige",
    "Umbria", "Valle d'Aosta", "Veneto", "----------", "Agrigento", "Alessandria", "Ancona",
    "Aosta", "Arezzo", "Ascoli Piceno", "Asti", "Avellino", "Bari", "Belluno", "Benevento",
    "Bergamo", "Biella", "Bologna", "Bolzano", "Brescia", "Brindisi", "Cagliari", "Caltanissetta",
    "Campobasso", "Caserta", "Catania", "Catanzaro", "Chieti", "Como", "Cosenza", "Cremona",
    "Crotone", "Cuneo", "Enna", "Ferrara", "Firenze", "Foggia", "Forli'", "Frosinone", "Genova",
    "Gorizia", "Grosseto", "Imperia", "Isernia", "L'Aquila", "La Spezia", "Latina", "Lecce",
    "Lecco", "Livorno", "Lodi", "Lucca", "Macerata", "Mantova", "Massa Carrara", "Matera",
    "Messina", "Milano", "Modena", "Napoli", "Novara", "Nuoro", "Oristano", "Padova", "Palermo",
    "Parma", "Pavia", "Perugia", "Pesaro", "Pescara", "Piacenza", "Pisa", "Pistoia", "Pordenone",
    "Potenza", "Prato", "Ragusa", "Ravenna", "Reggio Calabria", "Reggio Emilia", "Rieti",
    "Rimini", "Roma", "Rovigo", "Salerno", "Sassari", "Savona", "Siena", "Siracusa", "Sondrio",
    "Taranto", "Teramo", "Terni", "Torino", "Trapani", "Trento", "Treviso", "Trieste", "Udine",
    "Varese", "Venezia", "Verbania", "Vercelli", "Verona", "Vibo Valentia", "Vicenza",
    "Viterbo"]),
  ("Passatempo", ["----------", "non definito", "nessuno", "arte/antiquariato", "bricolage",
    "cinema", "collezionismo", "computer", "cucina", "danza", "esoterismo", "filatelia",
    "fotografia", "fumetti", "giardinaggio", "internet", "lettura", "moto/motori",
    "musica (ascoltarla)", "musica (suonarla)", "ozio", "viaggi", "sesso", "sport (praticarlo)",
    "sport (in tv!)", "teatro", "altro", "discoteche", "scienze", "giochi da tavolo",
    "scrivere"]),
  ("Sport", ["----------", "non definito", "nessuno", "aerobica", "arti marziali", "atletica",
    "automobilismo", "basket", "body building", "calcio/calcetto", "canottaggio/canoa",
    "ciclismo", "equitazione", "golf", "motociclismo", "nuoto", "pallavolo e/o beach volley",
    "pattinaggio", "pesca", "rugby", "sci/snowboard", "sport estremi", "surf",
    "tennis e/o squash", "vela", "altro", "caccia", "trekking"]),
  ("Musica", ["----------", "non definito", "nessuno", "country", "classica", "hip hop e r&b",
    "jazz e blues", "metal", "musica italiana", "pop", "rock", "new age", "pop", "altro",
    "reggae", "rock", "techno (e derivate)", "world music", "altro", "tango", "punk", "ska",
    "house", "underground", "rock alternativo"]),
  ("Film", ["----------", "non definito", "nessuno", "i film di azione/avventura", "i b-movies",
    "i cartoni (e film di animazione)", "i classici in bianco/nero", "le commedie",
    "le commedie all'italiana", "i film drammatici", "i film di fantascienza", "i gialli",
    "i film horror", "i musical", "i western", "altro", "film d'autore", "fantasy"]),
  ("Comunit\xe0", ["----------", "non definito", "Atlantis"]),
  ("Odi", ["----------", "non definito", "non odio niente! :-)", "gli addii", "i boxer fantasia",
    "il calcio", "i calzini bianchi corti", "la chirurgia plastica", "il computer",
    "le discoteche", "i fast-food", "i giornali e/o i telegiornali", "internet", "il lavoro",
    "la moda", "la politica", "la pubblicita'", "il reggiseno", "lo slowfood", "la sveglia",
    "la televisione", "Telecom Italia Net", "Titanic (il film)", "gli uomini troppo profumati",
    "le vamp", "i viaggi organizzati", "le gite fuori porta la domenica", "la scuola",
    "i fanatici di internet"])]

def profiloFields : List Userinfos := profiloIni.map fun f => ⟨ascii f.1, f.2.map ascii⟩

theorem profiloFields_elms : profiloFields.length ≤ 255 := by decide

theorem profiloFields_entries : ∀ f ∈ profiloFields, f.info.length ≤ 255 := by
  simp only [profiloFields, List.forall_mem_map, List.length_map]
  decide +kernel

/-- The table of the build. -/
def profilo : Profilo := ⟨profiloFields, profiloFields_elms, profiloFields_entries⟩

end C6
end IrC6
