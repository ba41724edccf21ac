import Ch32h4.Park.Equiv.Rounds
import Ch32h4.Spiftl.Volume
import Ch32h4.Spiftl.Equiv.Persisting
import Ch32h4.Spiftl.Equiv.Mounting
import Ch32h4.Spiftl.Equiv.Reading
import Ch32h4.Spiftl.Equiv.Taking
import Ch32h4.Spiftl.Equiv.Storing
import Ch32h4.Spiftl.Equiv.Levelling
import Ch32h4.Spiftl.Equiv.Neglecting
import Ch32h4.Xcore.Equiv.Exclusion
import Ch32h4.Xcore.Equiv.Queue
import Ch32h4.Eeprom.Equiv.Durability
import Ch32h4.Update.Equiv.Bounding
import Ch32h4.Update.Equiv.InPlace
import Ch32h4.Ota.Equiv.Challenge
import Ch32h4.Audio.Equiv.Silencing
import Ch32h4.Net.Equiv.Writing
import Ch32h4.Net.Equiv.Slots
import Ch32h4.Eth.Equiv.Draining
import Ch32h4.Tls.Equiv.Freeing
import Ch32h4.Tls.Equiv.Verifying
import Ch32h4.Http.Equiv.Configuring
import Ch32h4.Icy.Equiv.Splitting
import Ch32h4.Timer.Equiv.Sharing
import Ch32h4.Timer.Equiv.Stopping
import Ch32h4.I2s.Equiv.Accounting
import Ch32h4.I2s.Equiv.Surviving
import Ch32h4.Time.Equiv.Delaying
import Ch32h4.Time.Equiv.Monotone
import Ch32h4.Rtc.Equiv.Sampling
import Ch32h4.Heap.Equiv.Granting
import Ch32h4.Fs.Seek
import Ch32h4.Fs.Equiv.Seeking
import Ch32h4.Flash.Controller
import Ch32h4.Flash.Driver
import Ch32h4.Flash.Equiv.Cleaning
import Ch32h4.Sd.Equiv.Clocking
import Ch32h4.Spi.Equiv.Agreeing
import Ch32h4.Psram.Equiv.Transferring
import Ch32h4.Sd.Equiv.Covering
import Ch32h4.Timer.Equiv.Scaling
import Ch32h4.Timer.Tone
import Ch32h4.Timer.Equiv.Sounding
import Ch32h4.Linked
import Ch32h4.Ticker.Service
import Ch32h4.Ticker.Equiv.Walking
import Ch32h4.Ticker.Equiv.Running
import Ch32h4.Fs.Handle
import Ch32h4.Fs.Equiv.Handling
import Ch32h4.Cyclic
import Ch32h4.Eth.Filter
import Ch32h4.Eth.Equiv.Filtering
import Ch32h4.Udp.Socket
import Ch32h4.Udp.Equiv.Delivering
import Ch32h4.Udp.Equiv.Building
import Ch32h4.Mp3.Decoder
import Ch32h4.Mp3.Player
import Ch32h4.Mp3.Equiv.Looping
import Ch32h4.Mp3.Equiv.Consuming
import Ch32h4.Mp3.Equiv.Handing
import Ch32h4.Mp3.Equiv.Finishing
import Ch32h4.SpiSlave.Slave
import Ch32h4.SpiSlave.Equiv.Framing
import Ch32h4.Wire.Slave
import Ch32h4.Wire.Equiv.Serving
import Ch32h4.PlaylistURL.First
import Ch32h4.PlaylistURL.Forms
import Ch32h4.PlaylistURL.Equiv.Strings
import Ch32h4.PlaylistURL.Equiv.Reading
import Ch32h4.PlaylistURL.Equiv.Resolving
import Ch32h4.Mixing
import Ch32h4.Eeprom.Equiv.Checking
import Ch32h4.Rng.Pool
import Ch32h4.Rng.Equiv.Pooling
import Ch32h4.Ota.Transfer
import Ch32h4.Ota.Equiv.Stalling
import Ch32h4.Matching
import Ch32h4.Stream.Find
import Ch32h4.Stream.Equiv.Finding
import Ch32h4.Text.Basic
import Ch32h4.Web.Form
import Ch32h4.Web.Equiv.Uploading
import Ch32h4.Web.Equiv.Forms
import Ch32h4.Web.Arguments
import Ch32h4.Web.Equiv.Queries
import Ch32h4.Http.Chunked
import Ch32h4.Http.Equiv.Decoding
import Ch32h4.Address.IPAddress
import Ch32h4.Address.Equiv.RoundTrip
import Ch32h4.Transducer
import Ch32h4.Base64.Coder
import Ch32h4.Base64.Equiv.RoundTrip
import Ch32h4.Base64.Equiv.Blocks
import Ch32h4.Text.Number
import Ch32h4.Text.Equiv.Chunks
import Ch32h4.Text.Equiv.Numbers
import Ch32h4.Http.Request
import Ch32h4.Web.Request
import Ch32h4.Web.Equiv.Headers
import Ch32h4.Web.Equiv.Requesting
import Ch32h4.Web.Equiv.Receiving
import Ch32h4.Web.Equiv.Exchanging
import Ch32h4.Web.Authenticate
import Ch32h4.Web.Equiv.Authenticating
import Ch32h4.Web.Response
import Ch32h4.Web.Equiv.Responding
